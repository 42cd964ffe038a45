/-
When a call of `BuildPackage` appends its message and keeps its cursor
(Net/DataHandle.h).

The frames are slices of one buffer and their valid lengths are any. The
cursor is kept where the head is not cut: a head that is cut leaves the
offset behind by what the next frame got of it (`Place.after`).
-/
import XFramework.Net.PackagingBounds
import XFramework.Net.SenderWire

open Bytes Fallible

namespace PackageProxy

/-- The buffers of frames that follow each other. -/
def contiguous (base : Int) (n : Nat) : List Int := (List.range n).map fun i : Nat => base + 4096 * (i : Int)

def validAt (frames : List MsgFrame) (i : Nat) : Option Nat := frames[i]?.map MsgFrame.m_nValidLen

/-- The message is written at the cursor and nothing else is, and the cursor is kept: `c'` stands right behind it. -/
structure Appends (bufs : List Int) (c c' : Cursor) (head : MsgHead) (data : List UInt8) : Prop where
  mem : c'.mem = write c.mem c.pStart (head.bytes ++ data)
  stands : Stands bufs c' ⟨c'.fIndex, c'.nOffset, 0⟩
  behind : c'.pStart = c.pStart + (24 + data.length : Nat)
  full : ∀ i < c'.fIndex, validAt c'.frames i = some 4096
  valid : validAt c'.frames c'.fIndex = some c'.nOffset

/-- The head is not cut; the frames before are full, and the next one is empty where the message ends with its frame. -/
def Keeps (c : Cursor) (len : Nat) : Prop :=
  c.nOffset ≤ 4072 ∧ (∀ i < c.fIndex, validAt c.frames i = some 4096) ∧
    (c.nOffset + (len + 24) = 4096 → validAt c.frames (c.fIndex + 1) = some 0)

variable {base : Int} {n i j v : Nat} {c c' : Cursor} {frames : List MsgFrame} {frame : MsgHead} {data : List UInt8} {k : Place}

/-! ## Valid lengths -/

theorem validAt_resetValid_self (hi : i < frames.length) (hv : v < 65536) : validAt (resetValid frames i v) i = some v := by
  simp [validAt, getElem?_resetValid, hi, MsgFrame.resetValidDataLen, Nat.mod_eq_of_lt hv]

theorem validAt_resetValid_other (hij : i ≠ j) : validAt (resetValid frames i v) j = validAt frames j := by
  simp [validAt, getElem?_resetValid, hij]

theorem resetValid_length (frames : List MsgFrame) (i v : Nat) : (resetValid frames i v).length = frames.length := by
  simp [resetValid]

/-- Full frames are full still where a frame behind them gets its length. -/
theorem full_resetValid (hij : i ≤ j) : (∀ k < i, validAt (resetValid frames j v) k = some 4096) ↔
    ∀ k < i, validAt frames k = some 4096 :=
  forall₂_congr fun k hk => by rw [validAt_resetValid_other (Nat.ne_of_gt (Nat.lt_of_lt_of_le hk hij))]

/-- One more full frame. -/
theorem full_resetValid_succ (hi : i < frames.length) : (∀ k < i + 1, validAt (resetValid frames i 4096) k = some 4096) ↔
    ∀ k < i, validAt frames k = some 4096 := by
  rw [← full_resetValid (Nat.le_refl i)]
  refine ⟨fun h k hk => h k (Nat.lt_succ_of_lt hk), fun h k hk => ?_⟩
  rcases Nat.lt_succ_iff_lt_or_eq.1 hk with hk | rfl
  · exact h k hk
  · exact validAt_resetValid_self hi (by decide)

/-! ## The two cases of a whole head -/

theorem getElem?_contiguous (hi : i < n) : (contiguous base n)[i]? = some (base + 4096 * (i : Int)) := by
  simp [contiguous, hi]

/-- The address of the cursor. -/
theorem Stands.start_eq (h : Stands (contiguous base n) c k) :
    c.pStart = base + 4096 * (k.frame : Int) + k.offset + k.behind ∧ k.frame < n := by
  obtain ⟨q, hq, hstart⟩ := h.start
  have hlt : k.frame < n := by
    have := (List.getElem?_eq_some_iff.1 hq).1
    simpa [contiguous] using this
  rw [getElem?_contiguous hlt] at hq
  cases hq
  exact ⟨hstart, hlt⟩

theorem length_frames (h : Stands (contiguous base n) c k) : c.frames.length = n := by
  have := frames_length h.frames
  simpa [contiguous] using this

/-- What the other frames are filled with. -/
def Filled (c : Cursor) (len : Nat) : Prop :=
  (∀ i < c.fIndex, validAt c.frames i = some 4096) ∧ (c.nOffset + (len + 24) = 4096 → validAt c.frames (c.fIndex + 1) = some 0)

theorem whole_write (m : Mem) (p : Int) (frame : MsgHead) (data : List UInt8) :
    write (write m p (withLengths frame data.length (24 + data.length)).bytes) (p + 24) data =
      write m p ((withLengths frame data.length (24 + data.length)).bytes ++ data) :=
  write_append_of (by rw [MsgHead.length_bytes]; rfl)

/-- Once the bytes and the cursor are right, it is the valid lengths. -/
theorem appends_of {bufs : List Int} {head : MsgHead} (hmem : c'.mem = write c.mem c.pStart (head.bytes ++ data))
    (hstands : Stands bufs c' ⟨c'.fIndex, c'.nOffset, 0⟩) (hbehind : c'.pStart = c.pStart + (24 + data.length : Nat)) :
    Appends bufs c c' head data ↔
      (∀ i < c'.fIndex, validAt c'.frames i = some 4096) ∧ validAt c'.frames c'.fIndex = some c'.nOffset :=
  ⟨fun h => ⟨h.full, h.valid⟩, fun h => ⟨hmem, hstands, hbehind, h.1, h.2⟩⟩

theorem whole_appends (h : Stands (contiguous base n) c ⟨c.fIndex, c.nOffset, 0⟩) (hfit : data.length + 24 ≤ 4096 - c.nOffset)
    (hb : buildWhole c frame data (4096 - c.nOffset) = .ok c') :
    Appends (contiguous base n) c c' (withLengths frame data.length (24 + data.length)) data ↔ Filled c data.length := by
  have hafter := h.after_whole (show data.length + 24 ≤ Place.left ⟨c.fIndex, c.nOffset, 0⟩ from hfit) hb
  have hbelow := h.below
  have hlen := length_frames h
  obtain ⟨hstart, hin⟩ := h.start_eq
  dsimp only at hbelow hstart hin
  rw [Place.after, Place.left] at hafter
  rw [buildWhole] at hb
  split_ifs at hb with hexact
  · obtain ⟨next, hnext, hb⟩ := bind_eq_ok.1 hb
    cases hb
    rw [if_neg (by dsimp only; omega), if_pos hexact] at hafter
    obtain ⟨hstart', -⟩ := hafter.start_eq
    have hsum : c.nOffset + (data.length + 24) = 4096 := by omega
    refine (appends_of (whole_write ..) hafter ?_).trans ?_
    · dsimp only at hstart' ⊢
      omega
    · dsimp only
      rw [hsum, full_resetValid_succ (by omega), validAt_resetValid_other (by omega)]
      exact and_congr_right fun _ => ⟨fun hempty _ => hempty, fun hempty => hempty hsum⟩
  · cases hb
    rw [if_pos (by dsimp only; omega)] at hafter
    refine (appends_of (whole_write ..) hafter ?_).trans ?_
    · dsimp only
      omega
    · dsimp only
      rw [full_resetValid (Nat.le_refl _), validAt_resetValid_self (by omega) (by omega)]
      exact and_congr_right fun _ => iff_of_true rfl fun hsum => absurd hsum (by omega)

theorem splitData_appends (h : Stands (contiguous base n) c ⟨c.fIndex, c.nOffset, 0⟩) (hd : data.length ≤ 1000)
    (hlong : 4096 - c.nOffset < data.length + 24) (hhead : 24 ≤ 4096 - c.nOffset)
    (hb : buildSplitData c (withLengths frame 0 0) data 4096 (4096 - c.nOffset) = .ok c') :
    Appends (contiguous base n) c c' (withLengths frame data.length (24 + data.length)) data ↔ Filled c data.length := by
  have hafter := h.after_splitData (show Place.left ⟨c.fIndex, c.nOffset, 0⟩ < data.length + 24 from hlong) hhead hb
  have hbelow := h.below
  have hlen := length_frames h
  obtain ⟨hstart, hin⟩ := h.start_eq
  dsimp only at hbelow hstart hin
  rw [Place.after, Place.left, if_neg (by dsimp only; omega), if_neg (by dsimp only; omega), if_pos hhead] at hafter
  obtain ⟨hstart', hin'⟩ := hafter.start_eq
  have hleft : (if data.length - (4096 - c.nOffset - 24) > 1000 - (4096 - c.nOffset - 24) then
      1000 - (4096 - c.nOffset - 24) else data.length - (4096 - c.nOffset - 24)) = data.length - (4096 - c.nOffset - 24) :=
    if_neg (by omega)
  simp only [buildSplitData, hleft] at hb
  split_ifs at hb with hlast
  obtain ⟨next, hnext, hb⟩ := bind_eq_ok.1 hb
  cases hb
  dsimp only at hstart' hin'
  have hmin : min (data.length - (4096 - c.nOffset - 24)) (1000 - (4096 - c.nOffset - 24)) =
      data.length - (4096 - c.nOffset - 24) := by omega
  rw [hmin] at hafter
  refine (appends_of (splitData_write _ _ _ hd hhead hlong ?_) hafter ?_).trans ?_
  · omega
  · dsimp only
    omega
  · dsimp only
    rw [full_resetValid (Nat.le_refl _), full_resetValid_succ (by omega),
      validAt_resetValid_self (by rw [resetValid_length]; omega) (by omega)]
    exact and_congr_right fun _ => iff_of_true rfl fun hsum => absurd hsum (by omega)

/-! ## One call -/

variable {b : Build} {p : NetPackage}

/-- With a further frame a call for a chunk of at most 1000 bytes comes back, and it has appended its message and kept its
cursor exactly when the head is not cut and the other frames are filled as they should be. -/
theorem appends_iff (h : Stands (contiguous base n) c ⟨c.fIndex, c.nOffset, 0⟩) (hnext : c.fIndex + 1 < n) (hv : b.Valid)
    (hlen : b.len ≤ 1000) (p : NetPackage) :
    ∃ c', buildPackage c b.pSrc b.nFrameNo b.srcLen b.totalFrames p = .ok c' ∧
      (Appends (contiguous base n) c c'
        (withLengths (frameHead b.nFrameNo b.srcLen b.totalFrames p) b.len (24 + b.len)) (b.pSrc.getD []) ↔ Keeps c b.len) := by
  have hleft : Place.left ⟨c.fIndex, c.nOffset, 0⟩ = 4096 - c.nOffset := rfl
  have hroom : (contiguous base n).length = n := by simp [contiguous]
  have hkeeps (hoff : c.nOffset ≤ 4072) : Filled c b.len ↔ Keeps c b.len := (and_iff_right hoff).symm
  have hhead0 : frameHead b.nFrameNo b.srcLen b.totalFrames p =
      withLengths (frameHead b.nFrameNo b.srcLen b.totalFrames p) 0 0 := rfl
  rw [h.build_eq hv, hleft]
  unfold Build.len at hkeeps hlen ⊢
  generalize frameHead b.nFrameNo b.srcLen b.totalFrames p = frame at hhead0 ⊢
  generalize b.pSrc.getD [] = data at hkeeps hlen ⊢
  split_ifs with hfit hhead
  · obtain ⟨c', hb⟩ := h.whole_ok.2 fun _ => hroom.symm ▸ hnext
    exact ⟨c', hb, (whole_appends h hfit hb).trans (hkeeps (by omega))⟩
  · obtain ⟨c', hb⟩ := h.splitData_ok.2 (hroom.symm ▸ hnext)
    refine ⟨c', hb, ?_⟩
    rw [hhead0] at hb
    exact (splitData_appends h hlen (by omega) hhead hb).trans (hkeeps (by omega))
  · obtain ⟨c', hb⟩ := h.splitHead_ok.2 (hroom.symm ▸ hnext)
    refine ⟨c', hb, iff_of_false (fun hap => ?_) fun hkeep => absurd hkeep.1 (by omega)⟩
    -- the cursor is further than the offset says
    have hafter := h.after_splitHead (show Place.left ⟨c.fIndex, c.nOffset, 0⟩ < data.length + 24 by rw [hleft]; omega)
      (by rw [hleft]; omega) hb
    rw [Place.after, hleft, if_neg (by omega), if_neg (by omega), if_neg hhead] at hafter
    have hstart := hafter.start_eq.1
    have hstart' := hap.stands.start_eq.1
    have hframe := hafter.frame
    have hoffset := hafter.offset
    dsimp only at hstart hstart' hframe hoffset
    rw [hframe, hoffset] at hstart'
    push_cast at hstart hstart'
    omega

/-- A cursor over two frames from 1000 on, at the offset `o` of the first one. -/
def twoFrames (o : Nat) : Cursor := ⟨fun _ => 0, [⟨4096, o, 0, 1000⟩, ⟨4096, 0, 1, 5096⟩], 1000 + o, 0, o⟩

theorem twoFrames_stands {o : Nat} (ho : o < 4096) : Stands (contiguous 1000 2) (twoFrames o) ⟨0, o, 0⟩ :=
  ⟨rfl, rfl, rfl, ho, 1000, rfl, by simp [twoFrames]⟩

/-- The chunk goes on in the second frame. -/
theorem appends_iff_two : ∃ c', buildPackage (twoFrames 4000) (some (List.replicate 100 7)) 0 100 1 (zeros 100) = .ok c' ∧
    (Appends (contiguous 1000 2) (twoFrames 4000) c' (withLengths (frameHead 0 100 1 (zeros 100)) 100 (24 + 100))
      (List.replicate 100 7) ↔ Keeps (twoFrames 4000) 100) :=
  @appends_iff 1000 2 (twoFrames 4000) ⟨some (List.replicate 100 7), 0, 100, 1⟩ (twoFrames_stands (by decide)) (by decide) nofun
    (by decide) (zeros 100)

/-- A head is cut after 16 of its bytes: the cursor is 8 bytes further than the offset says. -/
theorem not_appends_cut : ∃ c', buildPackage (twoFrames 4080) (some [7]) 0 1 1 (zeros 1) = .ok c' ∧
    ¬Appends (contiguous 1000 2) (twoFrames 4080) c' (withLengths (frameHead 0 1 1 (zeros 1)) 1 25) [7] := by
  refine ⟨_, rfl, fun h => ?_⟩
  obtain ⟨q, hq, hstart⟩ := h.stands.start
  cases hq
  exact absurd hstart (by decide)

end PackageProxy
