/-
Whether `Packaging` stays inside its frames (Net/DataHandle.h).

`BuildPackage` copies into the frame under the cursor and the next one. Its
own count of the position falls behind the cursor by what the next frame got
of a cut head (`Place.behind`), so the following copies reach that far past
the end of the frame; and the capacity test has one head for a package, so the
frames may run out. `packaging_contained_iff` says when neither happens.
-/
import XFramework.Net.SendStall

open Bytes Fallible

namespace PackageProxy

/-! ## What a call copies -/

/-- A `memcpy` or an assignment of `BuildPackage`: `len` bytes at `addr`, into the frame of that number. -/
structure Copy where
  frame : Nat
  addr : Int
  len : Nat
  deriving DecidableEq

/-- The copy does not go beyond the capacity of its frame. -/
def Copy.Inside (frames : List MsgFrame) (w : Copy) : Prop :=
  ∃ fr ∈ frames[w.frame]?, fr.m_buf ≤ w.addr ∧ w.addr + w.len ≤ fr.m_buf + fr.capacity

/-- The bytes of a length in a head that is cut after `available` bytes: which frame each is meant for. -/
def patchCopies (f available at0 : Nat) (p : Int × Int) : List Copy :=
  [⟨if at0 ≤ available then f else f + 1, p.1, 1⟩, ⟨if at0 < available then f else f + 1, p.2, 1⟩]

def wholeCopies (c : Cursor) (len : Nat) : List Copy := [⟨c.fIndex, c.pStart, 24⟩, ⟨c.fIndex, c.pStart + 24, len⟩]

def splitDataCopies (c : Cursor) (next : Int) (len available : Nat) : List Copy :=
  let tmpOffset := available - 24
  let lastLen := if len - tmpOffset > 1000 - tmpOffset then 1000 - tmpOffset else len - tmpOffset
  [⟨c.fIndex, c.pStart, 24⟩, ⟨c.fIndex, c.pStart + 24, tmpOffset⟩, ⟨c.fIndex + 1, next, lastLen⟩,
    ⟨c.fIndex, c.pStart + 12, 2⟩, ⟨c.fIndex, c.pStart + 6, 2⟩]

def splitHeadCopies (c : Cursor) (next : Int) (len available : Nat) : List Copy :=
  let addrs := lengthAddrs available c.pStart next
  let lastLen := if len > 1000 then 1000 else len
  [⟨c.fIndex, c.pStart, available⟩, ⟨c.fIndex + 1, next, 24 - available⟩,
    ⟨c.fIndex + 1, next + (24 - available : Nat), lastLen⟩] ++
    patchCopies c.fIndex available 12 addrs.pAFrameLen ++ patchCopies c.fIndex available 6 addrs.pADataLen

/-- The copies of one call, in their order. -/
def buildCopies (c : Cursor) (len : Nat) : List Copy :=
  let available := (c.frames[c.fIndex]?.map MsgFrame.capacity).getD 0 - c.nOffset
  let next := (c.frames[c.fIndex + 1]?.map MsgFrame.m_buf).getD 0
  if len + 24 ≤ available then wholeCopies c len
  else if 24 ≤ available then splitDataCopies c next len available
  else splitHeadCopies c next len available

/-- The arguments of a call: `pSrc`, `nFrameNo`, `srcLen` and `totalFrames`. -/
structure Build where
  pSrc : Option (List UInt8)
  nFrameNo : Nat
  srcLen : Nat
  totalFrames : Nat

def Build.len (b : Build) : Nat := (b.pSrc.getD []).length

/-- The calls for a package; none when `getData` does not give what `compress` said. -/
def builds (h : SessionHandle) (p : NetPackage) : List Build :=
  match h.getData p with
  | (_, none) => []
  | (len, some pData) =>
    if len ≠ validLength h p then []
    else if len > 0 then (transFrames pData len).zipIdx.map fun t => ⟨some t.1, t.2, p.m_len, totalFrames len⟩
    else [⟨none, 0, 0, 1⟩]

/-- The calls, each with the cursor the ones before have left, succeed and stay inside the frames. -/
def Contained (p : NetPackage) : Cursor → List Build → Prop
  | _, [] => True
  | c, b :: bs => (∀ w ∈ buildCopies c b.len, w.Inside c.frames) ∧
    ∃ c', buildPackage c b.pSrc b.nFrameNo b.srcLen b.totalFrames p = .ok c' ∧ Contained p c' bs

/-- For each package that the capacity test lets through. -/
def QueueContained (h : SessionHandle) (totalCapacity : Nat) : List NetPackage → Nat → Nat → Cursor → Prop
  | [], _, _, _ => True
  | p :: theQueue, i, totalSend, c =>
    totalSend + validLength h p + (i + 1) * 24 ≤ totalCapacity → Contained p c (builds h p) ∧
      ∀ c', sendPackage h c p (validLength h p) = .ok c' → c'.fIndex ≠ c'.frames.length →
        QueueContained h totalCapacity theQueue (i + 1) (totalSend + validLength h p) c'

/-- All calls in the pass of `Packaging` over the queue. -/
def PackagingContained (h : SessionHandle) (m : Mem) (frames : List MsgFrame) (theQueue : List NetPackage) : Prop :=
  ∀ first ∈ frames[0]?,
    QueueContained h (frames.map MsgFrame.capacity).sum theQueue 0 0 ⟨m, frames, first.m_buf, 0, 0⟩

variable {c c' : Cursor} {h : SessionHandle} {p : NetPackage} {theQueue : List NetPackage} {a : Int}

/-! ## The copies are all that is written -/

theorem frameAt_eq_ok {frames : List MsgFrame} {i : Nat} {fr : MsgFrame} : frameAt frames i = .ok fr ↔ frames[i]? = some fr := by
  rw [frameAt]
  cases frames[i]? with
  | none => simp
  | some f => simp

/-- A valid length that is set leaves the frames where they are. -/
theorem getElem?_resetValid {frames : List MsgFrame} {i j v : Nat} :
    (resetValid frames i v)[j]? = frames[j]?.map fun fr => if i = j then fr.resetValidDataLen v else fr := by
  rw [resetValid, List.getElem?_modify]
  by_cases hij : i = j
  · simp only [if_pos hij]
    rfl
  · simp only [if_neg hij]
    rfl

theorem next_resetValid {frames : List MsgFrame} {i j v : Nat} {next : MsgFrame}
    (hnext : frameAt (resetValid frames i v) j = .ok next) : (frames[j]?.map MsgFrame.m_buf).getD 0 = next.m_buf := by
  rw [frameAt_eq_ok, getElem?_resetValid, Option.map_eq_some_iff] at hnext
  obtain ⟨fr, hfr, rfl⟩ := hnext
  rw [hfr]
  split_ifs <;> rfl

theorem patch_kept {m : Mem} {f available at0 v : Nat} {q : Int × Int}
    (hout : ∀ w ∈ patchCopies f available at0 q, a < w.addr ∨ w.addr + w.len ≤ a) : patch m q v a = m a := by
  simp only [patchCopies, List.mem_cons, List.not_mem_nil, or_false, forall_eq_or_imp, forall_eq] at hout
  rw [patch, write_other hout.2, write_other hout.1]

section Kept

variable {frame : MsgHead} {data : List UInt8} {capacity available : Nat}

theorem buildWhole_mem (hb : buildWhole c frame data available = .ok c')
    (hout : ∀ w ∈ wholeCopies c data.length, a < w.addr ∨ w.addr + w.len ≤ a) : c'.mem a = c.mem a := by
  simp only [wholeCopies, List.mem_cons, List.not_mem_nil, or_false, forall_eq_or_imp, forall_eq] at hout
  have hmem : ∀ head : MsgHead, write (write c.mem c.pStart head.bytes) (c.pStart + 24) data a = c.mem a := fun head => by
    rw [write_other hout.2, write_other (by rw [MsgHead.length_bytes]; exact hout.1)]
  rw [buildWhole] at hb
  split_ifs at hb with hfull
  · obtain ⟨next, -, hb⟩ := bind_eq_ok.1 hb
    cases hb
    exact hmem _
  · cases hb
    exact hmem _

theorem buildSplitData_mem (hcut : available < data.length + 24) (hb : buildSplitData c frame data capacity available = .ok c')
    (hout : ∀ w ∈ splitDataCopies c ((c.frames[c.fIndex + 1]?.map MsgFrame.m_buf).getD 0) data.length available,
      a < w.addr ∨ w.addr + w.len ≤ a) : c'.mem a = c.mem a := by
  simp only [splitDataCopies, List.mem_cons, List.not_mem_nil, or_false, forall_eq_or_imp, forall_eq] at hout
  obtain ⟨h₁, h₂, h₃, h₄, h₅⟩ := hout
  rw [buildSplitData] at hb
  split_ifs at hb with hlast
  all_goals
    obtain ⟨next, hnext, hb⟩ := bind_eq_ok.1 hb
    cases hb
    rw [next_resetValid hnext] at h₃
    change writeLE (writeLE (write (write (write _ _ _) _ _) _ _) _ 2 _) _ 2 _ a = _
    rw [writeLE_other (by exact h₅), writeLE_other (by exact h₄), write_other, write_other, write_other]
    · rw [MsgHead.length_bytes]
      exact h₁
    · rw [List.length_take]
      omega
    · rw [List.length_take, List.length_drop]
      omega

theorem buildSplitHead_mem (hshort : available < 24) (hb : buildSplitHead c frame data capacity available = .ok c')
    (hout : ∀ w ∈ splitHeadCopies c ((c.frames[c.fIndex + 1]?.map MsgFrame.m_buf).getD 0) data.length available,
      a < w.addr ∨ w.addr + w.len ≤ a) : c'.mem a = c.mem a := by
  simp only [splitHeadCopies, List.mem_append, or_imp, forall_and, List.mem_cons, List.not_mem_nil, or_false,
    forall_eq] at hout
  obtain ⟨⟨⟨h₁, h₂, h₃⟩, h₄⟩, h₅⟩ := hout
  rw [buildSplitHead] at hb
  obtain ⟨next, hnext, hb⟩ := bind_eq_ok.1 hb
  cases hb
  rw [next_resetValid hnext] at h₂ h₃ h₄ h₅
  change patch (patch (write (write (write _ _ _) _ _) _ _) _ _) _ _ a = _
  rw [patch_kept h₅, patch_kept h₄, write_other, write_other, write_other]
  · rw [List.length_take, MsgHead.length_bytes]
    omega
  · rw [List.length_drop, MsgHead.length_bytes]
    exact h₂
  · rw [List.length_take]
    omega

end Kept

/-- A byte that no copy has stays as it was. -/
theorem buildPackage_mem {b : Build} (hb : buildPackage c b.pSrc b.nFrameNo b.srcLen b.totalFrames p = .ok c')
    (hout : ∀ w ∈ buildCopies c b.len, a < w.addr ∨ w.addr + w.len ≤ a) : c'.mem a = c.mem a := by
  obtain ⟨cur, hcur, hb⟩ := bind_eq_ok.1 hb
  have hcap : (c.frames[c.fIndex]?.map MsgFrame.capacity).getD 0 = cur.capacity := by
    rw [frameAt_eq_ok.1 hcur]
    rfl
  rw [buildCopies, hcap, Build.len] at hout
  dsimp only at hb hout
  split_ifs at hb with hnull hfit hhead
  · rw [if_pos hfit] at hout
    exact buildWhole_mem hb hout
  · rw [if_neg hfit, if_pos hhead] at hout
    exact buildSplitData_mem (by omega) hb hout
  · rw [if_neg hfit, if_neg hhead] at hout
    exact buildSplitHead_mem (by omega) hb hout

/-- No byte of the frames is at `a`. -/
def Outside (a : Int) (frames : List MsgFrame) : Prop :=
  ∀ fr ∈ frames, a < fr.m_buf ∨ fr.m_buf + fr.capacity ≤ a

theorem Copy.Inside.apart {frames : List MsgFrame} {w : Copy} (hw : w.Inside frames) (ho : Outside a frames) :
    a < w.addr ∨ w.addr + w.len ≤ a := by
  obtain ⟨fr, hfr, hlo, hhi⟩ := hw
  have := ho fr (List.mem_of_getElem? hfr)
  omega

theorem outside_resetValid {frames : List MsgFrame} {i v : Nat} (ho : Outside a frames) : Outside a (resetValid frames i v) := by
  intro fr hfr
  obtain ⟨j, hj⟩ := List.mem_iff_getElem?.1 hfr
  rw [getElem?_resetValid, Option.map_eq_some_iff] at hj
  obtain ⟨fr₀, hfr₀, rfl⟩ := hj
  have := ho fr₀ (List.mem_of_getElem? hfr₀)
  split_ifs <;> exact this

theorem outside_build {b : Build} (hb : buildPackage c b.pSrc b.nFrameNo b.srcLen b.totalFrames p = .ok c')
    (ho : Outside a c.frames) : Outside a c'.frames := by
  obtain ⟨cur, -, hb⟩ := bind_eq_ok.1 hb
  dsimp only at hb
  split_ifs at hb with hnull hfit hhead
  · simp only [buildWhole] at hb
    split_ifs at hb
    · obtain ⟨next, -, hb⟩ := bind_eq_ok.1 hb
      cases hb
      exact outside_resetValid ho
    · cases hb
      exact outside_resetValid ho
  · simp only [buildSplitData] at hb
    split_ifs at hb
    all_goals
      obtain ⟨next, -, hb⟩ := bind_eq_ok.1 hb
      cases hb
      exact outside_resetValid (outside_resetValid ho)
  · obtain ⟨next, -, hb⟩ := bind_eq_ok.1 hb
    cases hb
    exact outside_resetValid (outside_resetValid ho)

/-- Calls that stay inside change no other byte. -/
theorem Contained.mem {bs : List Build} (hc : Contained p c bs) (ho : Outside a c.frames)
    (hrun : bs.foldlM (fun c b => buildPackage c b.pSrc b.nFrameNo b.srcLen b.totalFrames p) c = .ok c') :
    c'.mem a = c.mem a ∧ Outside a c'.frames := by
  induction bs generalizing c with
  | nil =>
    cases foldlM_nil_ok.1 hrun
    exact ⟨rfl, ho⟩
  | cons b bs ih =>
    obtain ⟨hin, c₁, h₁, hrest⟩ := hc
    obtain ⟨c₂, h₂, hrun⟩ := foldlM_cons_ok.1 hrun
    cases h₁.symm.trans h₂
    obtain ⟨hmem, ho'⟩ := ih hrest (outside_build h₁ ho) hrun
    exact ⟨hmem.trans (buildPackage_mem h₁ fun w hw => (hin w hw).apart ho), ho'⟩

/-! ## Where the copies go -/

/-- Where the sender stands: the frame, its own count of the offset there, and by how many bytes the cursor is further. -/
structure Place where
  frame : Nat
  offset : Nat
  behind : Nat
  deriving DecidableEq

/-- What the sender takes for the room that is left in the frame. -/
def Place.left (k : Place) : Nat := 4096 - k.offset

/-- Behind a message with `len` bytes of data. -/
def Place.after (k : Place) (len : Nat) : Place :=
  if len + 24 < k.left then ⟨k.frame, k.offset + (len + 24), k.behind⟩
  else if len + 24 = k.left then ⟨k.frame + 1, 0, 0⟩
  else if 24 ≤ k.left then ⟨k.frame + 1, min (len - (k.left - 24)) (1000 - (k.left - 24)), 0⟩
  else ⟨k.frame + 1, min len 1000, 24 - k.left⟩

/-- A message with `len` bytes of data ends in its frame; or there is a next frame, the cursor is where the sender
takes it to be, and a head is not cut right at or in a length. -/
def Place.Fits (n : Nat) (k : Place) (len : Nat) : Prop :=
  if len + 24 ≤ k.left then k.offset + k.behind + (len + 24) ≤ 4096 ∧ (len + 24 = k.left → k.frame + 1 < n)
  else k.behind = 0 ∧ k.frame + 1 < n ∧ k.left ∉ [6, 7, 12, 13]

instance (n : Nat) (k : Place) (len : Nat) : Decidable (k.Fits n len) := by
  unfold Place.Fits
  infer_instance

/-- The cursor over frames of 4096 bytes with the buffers `bufs`. -/
structure Stands (bufs : List Int) (c : Cursor) (k : Place) : Prop where
  frames : c.frames.map (fun fr => (fr.len, fr.m_buf)) = bufs.map fun q => (4096, q)
  frame : c.fIndex = k.frame
  offset : c.nOffset = k.offset
  below : k.offset < 4096
  start : ∃ q, bufs[k.frame]? = some q ∧ c.pStart = q + k.offset + k.behind

variable {bufs : List Int} {k : Place} {b : Build} {q : Int} {f : Nat}

theorem map_resetValid {frames : List MsgFrame} {i v : Nat} :
    (resetValid frames i v).map (fun fr => (fr.len, fr.m_buf)) = frames.map fun fr => (fr.len, fr.m_buf) := by
  refine List.ext_getElem? fun j => ?_
  rw [List.getElem?_map, List.getElem?_map, getElem?_resetValid, Option.map_map]
  refine congrArg (Option.map · _) (funext fun fr => ?_)
  simp only [Function.comp_apply]
  split_ifs <;> rfl

theorem frames_at {frames : List MsgFrame} (hfr : frames.map (fun fr => (fr.len, fr.m_buf)) = bufs.map fun q => (4096, q))
    (hq : bufs[f]? = some q) : ∃ fr, frames[f]? = some fr ∧ fr.len = 4096 ∧ fr.m_buf = q := by
  have hat := congrArg (fun l : List (Nat × Int) => l[f]?) hfr
  simp only [List.getElem?_map, hq, Option.map_some] at hat
  obtain ⟨fr, hfr, heq⟩ := Option.map_eq_some_iff.1 hat
  exact ⟨fr, hfr, congrArg Prod.fst heq, congrArg Prod.snd heq⟩

theorem frames_length {frames : List MsgFrame}
    (hfr : frames.map (fun fr => (fr.len, fr.m_buf)) = bufs.map fun q => (4096, q)) : frames.length = bufs.length := by
  have hlen := congrArg List.length hfr
  rwa [List.length_map, List.length_map] at hlen

theorem Stands.inside_iff (h : Stands bufs c k) (hq : bufs[f]? = some q) {addr : Int} {len : Nat} :
    Copy.Inside c.frames ⟨f, addr, len⟩ ↔ q ≤ addr ∧ addr + len ≤ q + 4096 := by
  obtain ⟨fr, hfr, hlen, hbuf⟩ := frames_at h.frames hq
  rw [Copy.Inside, hfr]
  simp only [Option.mem_def, Option.some.injEq, exists_eq_left', MsgFrame.capacity, hlen, hbuf, Nat.cast_ofNat]

theorem Stands.frameAt_eq (h : Stands bufs c k) (hq : bufs[k.frame]? = some q) :
    ∃ cur, frameAt c.frames c.fIndex = .ok cur ∧ cur.capacity = 4096 ∧ cur.capacity - c.nOffset = k.left := by
  obtain ⟨fr, hfr, hlen, -⟩ := frames_at h.frames hq
  refine ⟨fr, ?_, hlen, ?_⟩
  · rw [frameAt_eq_ok, h.frame]
    exact hfr
  · rw [MsgFrame.capacity, hlen, h.offset, Place.left]

/-- There is a next frame just when the number of frames allows it. -/
theorem Stands.next_iff (h : Stands bufs c k) {i v : Nat} :
    (∃ next, frameAt (resetValid c.frames i v) (c.fIndex + 1) = .ok next) ↔ k.frame + 1 < c.frames.length := by
  simp only [frameAt_eq_ok, getElem?_resetValid, h.frame, Option.map_eq_some_iff]
  refine ⟨?_, ?_⟩
  · rintro ⟨-, fr, hfr, -⟩
    exact (List.getElem?_eq_some_iff.1 hfr).1
  · intro hlt
    exact ⟨_, _, List.getElem?_eq_getElem hlt, rfl⟩

/-- The next frame is the next buffer. -/
theorem buf_of_frameAt {frames : List MsgFrame} {next : MsgFrame}
    (hfr : frames.map (fun fr => (fr.len, fr.m_buf)) = bufs.map fun q => (4096, q)) (hnext : frameAt frames f = .ok next) :
    bufs[f]? = some next.m_buf := by
  have hat := congrArg (fun l : List (Nat × Int) => l[f]?) hfr
  simp only [List.getElem?_map, frameAt_eq_ok.1 hnext, Option.map_some] at hat
  obtain ⟨q, hq, heq⟩ := Option.map_eq_some_iff.1 hat.symm
  rw [hq]
  exact congrArg some (congrArg Prod.snd heq)

section After

variable {frame : MsgHead} {data : List UInt8} {capacity : Nat}

theorem Stands.after_whole (h : Stands bufs c k) (hfit : data.length + 24 ≤ k.left)
    (hb : buildWhole c frame data k.left = .ok c') : Stands bufs c' (k.after data.length) := by
  obtain ⟨q, hq, hstart⟩ := h.start
  have hbelow := h.below
  have hleft : k.left = 4096 - k.offset := rfl
  rw [buildWhole] at hb
  rw [Place.after]
  split_ifs at hb with hfull
  · obtain ⟨next, hnext, hb⟩ := bind_eq_ok.1 hb
    cases hb
    rw [if_neg (by omega), if_pos hfull]
    have hbuf := buf_of_frameAt (map_resetValid.trans h.frames) hnext
    rw [h.frame] at hbuf
    exact ⟨map_resetValid.trans h.frames, congrArg (· + 1) h.frame, rfl, Nat.zero_lt_succ _, _, hbuf, by simp⟩
  · cases hb
    rw [if_pos (by omega)]
    refine ⟨map_resetValid.trans h.frames, h.frame, ?_, ?_, q, hq, ?_⟩
    · dsimp only
      rw [h.offset]
    · dsimp only
      omega
    · dsimp only
      omega

theorem Stands.after_splitData (h : Stands bufs c k) (hlong : k.left < data.length + 24) (hhead : 24 ≤ k.left)
    (hb : buildSplitData c frame data capacity k.left = .ok c') : Stands bufs c' (k.after data.length) := by
  have hleft : k.left = 4096 - k.offset := rfl
  have hmin : (if data.length - (k.left - 24) > 1000 - (k.left - 24) then 1000 - (k.left - 24)
      else data.length - (k.left - 24)) = min (data.length - (k.left - 24)) (1000 - (k.left - 24)) := by
    split_ifs <;> omega
  simp only [buildSplitData, hmin] at hb
  rw [Place.after, if_neg (by omega), if_neg (by omega), if_pos hhead]
  by_cases hlast : c.fIndex + 1 = c.frames.length
  · rw [if_pos hlast] at hb
    cases hb
  · rw [if_neg hlast] at hb
    obtain ⟨next, hnext, hb⟩ := bind_eq_ok.1 hb
    cases hb
    have hbuf := buf_of_frameAt (map_resetValid.trans h.frames) hnext
    rw [h.frame] at hbuf
    refine ⟨map_resetValid.trans (map_resetValid.trans h.frames), congrArg (· + 1) h.frame, rfl, ?_, _, hbuf, ?_⟩
    all_goals
      dsimp only
      omega

theorem Stands.after_splitHead (h : Stands bufs c k) (hlong : k.left < data.length + 24) (hshort : k.left < 24)
    (hb : buildSplitHead c frame data capacity k.left = .ok c') : Stands bufs c' (k.after data.length) := by
  have hleft : k.left = 4096 - k.offset := rfl
  have hmin : (if data.length > 1000 then 1000 else data.length) = min data.length 1000 := by
    split_ifs <;> omega
  simp only [buildSplitHead, hmin] at hb
  obtain ⟨next, hnext, hb⟩ := bind_eq_ok.1 hb
  cases hb
  rw [Place.after, if_neg (by omega), if_neg (by omega), if_neg (by omega)]
  have hbuf := buf_of_frameAt (map_resetValid.trans h.frames) hnext
  rw [h.frame] at hbuf
  refine ⟨map_resetValid.trans (map_resetValid.trans h.frames), congrArg (· + 1) h.frame, rfl, ?_, _, hbuf, ?_⟩
  all_goals
    dsimp only
    omega

end After

/-- The arguments of a call that has no data are the ones for an empty package. -/
def Build.Valid (b : Build) : Prop := b.pSrc = none → b.nFrameNo = 0 ∧ b.srcLen = 0 ∧ b.totalFrames = 1

/-- The branch that a call takes. -/
theorem Stands.build_eq (h : Stands bufs c k) (hv : b.Valid) :
    buildPackage c b.pSrc b.nFrameNo b.srcLen b.totalFrames p =
      if b.len + 24 ≤ k.left then buildWhole c (frameHead b.nFrameNo b.srcLen b.totalFrames p) (b.pSrc.getD []) k.left
      else if 24 ≤ k.left then
        buildSplitData c (frameHead b.nFrameNo b.srcLen b.totalFrames p) (b.pSrc.getD []) 4096 k.left
      else buildSplitHead c (frameHead b.nFrameNo b.srcLen b.totalFrames p) (b.pSrc.getD []) 4096 k.left := by
  obtain ⟨q, hq, -⟩ := h.start
  obtain ⟨cur, hcur, hcap, hroom⟩ := h.frameAt_eq hq
  have hnull : ¬(b.pSrc = none ∧ (b.nFrameNo ≠ 0 ∨ b.srcLen ≠ 0 ∨ b.totalFrames ≠ 1)) := by
    rintro ⟨hnone, hbad⟩
    obtain ⟨h₁, h₂, h₃⟩ := hv hnone
    omega
  rw [buildPackage, hcur]
  change (if _ then _ else if _ then _ else if _ then _ else _) = _
  rw [if_neg hnull, hroom, hcap]
  rfl

theorem Stands.after (h : Stands bufs c k) (hv : b.Valid)
    (hb : buildPackage c b.pSrc b.nFrameNo b.srcLen b.totalFrames p = .ok c') : Stands bufs c' (k.after b.len) := by
  have heq := h.build_eq (p := p) hv
  rw [heq] at hb
  split_ifs at hb with hfit hhead
  · exact h.after_whole hfit hb
  · exact h.after_splitData (Nat.lt_of_not_le hfit) hhead hb
  · exact h.after_splitHead (Nat.lt_of_not_le hfit) (Nat.lt_of_not_le hhead) hb

section Ends

variable {frame : MsgHead} {data : List UInt8} {capacity available : Nat}

theorem Stands.whole_ok (h : Stands bufs c k) : (∃ c', buildWhole c frame data available = .ok c') ↔
    (data.length + 24 = available → k.frame + 1 < bufs.length) := by
  rw [← frames_length h.frames, ← h.next_iff]
  simp only [buildWhole]
  by_cases hfull : data.length + 24 = available
  · rw [if_pos hfull, exists_bind_ok]
    exact ⟨fun hnext _ => hnext, fun hnext => hnext hfull⟩
  · rw [if_neg hfull]
    exact iff_of_true ⟨_, rfl⟩ fun hfull' => absurd hfull' hfull

theorem Stands.splitData_ok (h : Stands bufs c k) : (∃ c', buildSplitData c frame data capacity available = .ok c') ↔
    k.frame + 1 < bufs.length := by
  rw [← frames_length h.frames]
  simp only [buildSplitData]
  by_cases hlast : c.fIndex + 1 = c.frames.length
  · rw [if_pos hlast, ← hlast, h.frame]
    exact iff_of_false (by simp) (lt_irrefl _)
  · rw [if_neg hlast, exists_bind_ok]
    exact h.next_iff

theorem Stands.splitHead_ok (h : Stands bufs c k) : (∃ c', buildSplitHead c frame data capacity available = .ok c') ↔
    k.frame + 1 < bufs.length := by
  rw [← frames_length h.frames]
  simp only [buildSplitHead]
  rw [exists_bind_ok]
  exact h.next_iff

end Ends

section InFrames

variable {len : Nat} {q' : Int}

theorem Stands.whole_inside (h : Stands bufs c k) :
    (∀ w ∈ wholeCopies c len, w.Inside c.frames) ↔ k.offset + k.behind + (len + 24) ≤ 4096 := by
  obtain ⟨q, hq, hstart⟩ := h.start
  simp only [wholeCopies, List.mem_cons, List.not_mem_nil, or_false, forall_eq_or_imp, forall_eq]
  rw [h.frame, h.inside_iff hq, h.inside_iff hq]
  omega

theorem Stands.splitData_inside (h : Stands bufs c k) (hq' : bufs[k.frame + 1]? = some q') (hhead : 24 ≤ k.left) :
    (∀ w ∈ splitDataCopies c q' len k.left, w.Inside c.frames) ↔ k.behind = 0 := by
  obtain ⟨q, hq, hstart⟩ := h.start
  have hleft : k.left = 4096 - k.offset := rfl
  simp only [splitDataCopies, List.mem_cons, List.not_mem_nil, or_false, forall_eq_or_imp, forall_eq]
  rw [h.frame, h.inside_iff hq, h.inside_iff hq, h.inside_iff hq', h.inside_iff hq, h.inside_iff hq]
  split_ifs <;> omega

/-- A patched length stays in the two frames unless the head is cut at the length or in it. -/
theorem Stands.patch_inside (h : Stands bufs c k) (hq : bufs[k.frame]? = some q) (hq' : bufs[k.frame + 1]? = some q')
    (hbehind : k.behind = 0) (hshort : k.left < 24) :
    ((∀ w ∈ patchCopies k.frame k.left 12 (lengthAddrs k.left c.pStart q').pAFrameLen, w.Inside c.frames) ∧
      ∀ w ∈ patchCopies k.frame k.left 6 (lengthAddrs k.left c.pStart q').pADataLen, w.Inside c.frames) ↔
      k.left ∉ [6, 7, 12, 13] := by
  obtain ⟨q₁, hq₁, hstart⟩ := h.start
  cases hq.symm.trans hq₁
  have hbelow := h.below
  have hleft : k.left = 4096 - k.offset := rfl
  simp only [patchCopies, List.mem_cons, List.not_mem_nil, or_false, forall_eq_or_imp, forall_eq]
  generalize k.left = left at hleft hshort ⊢
  rw [lengthAddrs]
  split_ifs <;> first
    | omega
    | rw [h.inside_iff (by assumption), h.inside_iff (by assumption), h.inside_iff (by assumption),
        h.inside_iff (by assumption)]
      dsimp only
      omega

theorem Stands.splitHead_inside (h : Stands bufs c k) (hq' : bufs[k.frame + 1]? = some q') (hshort : k.left < 24) :
    (∀ w ∈ splitHeadCopies c q' len k.left, w.Inside c.frames) ↔ k.behind = 0 ∧ k.left ∉ [6, 7, 12, 13] := by
  obtain ⟨q, hq, hstart⟩ := h.start
  have hbelow := h.below
  have hleft : k.left = 4096 - k.offset := rfl
  simp only [splitHeadCopies, h.frame, List.mem_append, or_imp, forall_and]
  by_cases hbehind : k.behind = 0
  · rw [and_assoc, h.patch_inside hq hq' hbehind hshort]
    refine and_congr_left fun _ => ?_
    simp only [List.mem_cons, List.not_mem_nil, or_false, forall_eq_or_imp, forall_eq]
    rw [h.inside_iff hq, h.inside_iff hq', h.inside_iff hq']
    split_ifs <;> omega
  · refine iff_of_false (fun hin => ?_) fun hin => hbehind hin.1
    have hhead := hin.1.1 _ List.mem_cons_self
    rw [h.inside_iff hq] at hhead
    omega

end InFrames

/-- The calls whose copies stay inside and which succeed are the ones that fit. -/
theorem Stands.fits_iff (h : Stands bufs c k) (hv : b.Valid) :
    ((∀ w ∈ buildCopies c b.len, w.Inside c.frames) ∧
      ∃ c', buildPackage c b.pSrc b.nFrameNo b.srcLen b.totalFrames p = .ok c') ↔ k.Fits bufs.length b.len := by
  obtain ⟨q, hq, -⟩ := h.start
  have heq := h.build_eq (p := p) hv
  obtain ⟨fr, hfr, hfrlen, -⟩ := frames_at h.frames hq
  have hroom : (c.frames[c.fIndex]?.map MsgFrame.capacity).getD 0 - c.nOffset = k.left := by
    rw [h.frame, hfr, h.offset]
    exact congrArg (· - k.offset) hfrlen
  have hnext : ∀ q', bufs[k.frame + 1]? = some q' → (c.frames[c.fIndex + 1]?.map MsgFrame.m_buf).getD 0 = q' := by
    intro q' hq'
    obtain ⟨fr', hfr', -, hbuf'⟩ := frames_at h.frames hq'
    rw [h.frame, hfr']
    exact hbuf'
  have hlen : (b.pSrc.getD []).length = b.len := rfl
  simp only [heq, buildCopies, hroom]
  rw [Place.Fits]
  by_cases hfit : b.len + 24 ≤ k.left
  · rw [if_pos hfit, if_pos hfit, if_pos hfit, h.whole_inside, h.whole_ok, hlen]
  rw [if_neg hfit, if_neg hfit, if_neg hfit]
  by_cases hin : k.frame + 1 < bufs.length
  · have hq' := List.getElem?_eq_getElem hin
    rw [hnext _ hq']
    by_cases hhead : 24 ≤ k.left
    · rw [if_pos hhead, if_pos hhead, h.splitData_inside hq' hhead, h.splitData_ok]
      refine and_congr_right fun _ => (and_iff_left ?_).symm
      simp only [List.mem_cons, List.not_mem_nil, or_false]
      omega
    · rw [if_neg hhead, if_neg hhead, h.splitHead_inside hq' (Nat.lt_of_not_le hhead), h.splitHead_ok]
      exact and_assoc.trans (and_congr_right fun _ => and_comm)
  · refine iff_of_false (fun hok => hin ?_) fun hok => hin hok.2.1
    have hok := hok.2
    split_ifs at hok
    · exact h.splitData_ok.1 hok
    · exact h.splitHead_ok.1 hok

/-! ## A package, the queue -/

/-- The messages with data of these lengths fit, each where the ones before it end. -/
def Place.FitsAll (n : Nat) : Place → List Nat → Prop
  | _, [] => True
  | k, len :: lens => k.Fits n len ∧ (k.after len).FitsAll n lens

theorem Stands.contained_iff {bs : List Build} (h : Stands bufs c k) (hv : ∀ b ∈ bs, b.Valid) :
    Contained p c bs ↔ k.FitsAll bufs.length (bs.map Build.len) := by
  induction bs generalizing c k with
  | nil => exact Iff.rfl
  | cons b bs ih =>
    have hb := hv b List.mem_cons_self
    have hbs : ∀ b ∈ bs, b.Valid := fun d hd => hv d (List.mem_cons_of_mem _ hd)
    rw [Contained, List.map_cons, Place.FitsAll, ← h.fits_iff (p := p) hb, and_assoc]
    refine and_congr_right fun _ => ?_
    refine ⟨?_, ?_⟩
    · rintro ⟨c', hc', hrest⟩
      exact ⟨⟨c', hc'⟩, (ih (h.after hb hc') hbs).1 hrest⟩
    · rintro ⟨⟨c', hc'⟩, hrest⟩
      exact ⟨c', hc', (ih (h.after hb hc') hbs).2 hrest⟩

/-- `getData` gives what `compress` said. -/
def Given (h : SessionHandle) (p : NetPackage) : Prop :=
  (h.getData p).1 = validLength h p ∧ (h.getData p).2 ≠ none

instance : Decidable (Given h p) := inferInstanceAs (Decidable (_ ∧ _))

theorem builds_not_given (hg : ¬Given h p) : builds h p = [] := by
  rw [Given] at hg
  rw [builds]
  generalize h.getData p = d at hg ⊢
  obtain ⟨len, _ | pData⟩ := d
  · rfl
  · exact if_pos fun heq => hg ⟨heq, by simp⟩

theorem lens_builds (hg : Given h p) : (builds h p).map Build.len = messageLengths h p := by
  rw [builds, messageLengths]
  obtain ⟨hlen, hdata⟩ := hg
  generalize h.getData p = d at hlen hdata ⊢
  obtain ⟨len, _ | pData⟩ := d
  · exact absurd rfl hdata
  · dsimp only at hlen ⊢
    rw [if_neg (not_not_intro hlen)]
    split_ifs
    · calc ((transFrames pData len).zipIdx.map fun t => (⟨some t.1, t.2, p.m_len, totalFrames len⟩ : Build)).map Build.len
          = ((transFrames pData len).zipIdx.map Prod.fst).map List.length := by
            rw [List.map_map, List.map_map]
            rfl
        _ = (transFrames pData len).map List.length := by rw [List.zipIdx_map_fst]
    · rfl

theorem valid_builds : ∀ b ∈ builds h p, b.Valid := by
  intro b hb
  rw [builds] at hb
  generalize h.getData p = d at hb
  obtain ⟨len, _ | pData⟩ := d
  · cases hb
  · dsimp only at hb
    split_ifs at hb with hne hpos
    · cases hb
    · obtain ⟨t, -, rfl⟩ := List.mem_map.1 hb
      exact fun hnone => by cases hnone
    · rw [List.mem_singleton.1 hb]
      exact fun _ => ⟨rfl, rfl, rfl⟩

/-- The calls are the ones that `sendPackage` makes. -/
theorem sendPackage_eq (hg : Given h p) : sendPackage h c p (validLength h p) =
    (builds h p).foldlM (fun c b => buildPackage c b.pSrc b.nFrameNo b.srcLen b.totalFrames p) c := by
  rw [sendPackage, builds]
  obtain ⟨hlen, hdata⟩ := hg
  generalize h.getData p = d at hlen hdata ⊢
  obtain ⟨len, _ | pData⟩ := d
  · exact absurd rfl hdata
  · dsimp only at hlen ⊢
    rw [if_neg (not_not_intro hlen), if_neg (not_not_intro hlen)]
    split_ifs
    · rw [List.foldlM_map]
    · exact (bind_pure _).symm

theorem sendPackage_not_given (hg : ¬Given h p) : ∃ e, sendPackage h c p (validLength h p) = .error e := by
  rw [Given] at hg
  rw [sendPackage]
  generalize h.getData p = d at hg ⊢
  obtain ⟨len, _ | pData⟩ := d
  · exact ⟨_, rfl⟩
  · exact ⟨_, if_pos fun heq => hg ⟨heq, by simp⟩⟩

/-- The messages of every package that the capacity test lets through fit. -/
def QueueFits (h : SessionHandle) (n totalCapacity : Nat) : List NetPackage → Nat → Nat → Place → Prop
  | [], _, _, _ => True
  | p :: theQueue, i, totalSend, k =>
    totalSend + validLength h p + (i + 1) * 24 ≤ totalCapacity → Given h p →
      k.FitsAll n (messageLengths h p) ∧
        QueueFits h n totalCapacity theQueue (i + 1) (totalSend + validLength h p) ((messageLengths h p).foldl Place.after k)

instance decFitsAll (n : Nat) : ∀ (k : Place) (lens : List Nat), Decidable (k.FitsAll n lens)
  | _, [] => isTrue trivial
  | k, len :: lens =>
    have := decFitsAll n (k.after len) lens
    inferInstanceAs (Decidable (_ ∧ _))

instance decQueueFits (n totalCapacity : Nat) :
    ∀ (theQueue : List NetPackage) (i totalSend : Nat) (k : Place), Decidable (QueueFits h n totalCapacity theQueue i totalSend k)
  | [], _, _, _ => isTrue trivial
  | p :: theQueue, i, totalSend, k =>
    have := decQueueFits n totalCapacity theQueue (i + 1) (totalSend + validLength h p) ((messageLengths h p).foldl Place.after k)
    inferInstanceAs (Decidable (_ → _ → _))

theorem Contained.run {bs : List Build} (hc : Contained p c bs) :
    ∃ c', bs.foldlM (fun c b => buildPackage c b.pSrc b.nFrameNo b.srcLen b.totalFrames p) c = .ok c' := by
  induction bs generalizing c with
  | nil => exact ⟨c, rfl⟩
  | cons b bs ih =>
    obtain ⟨-, c₁, h₁, hrest⟩ := hc
    obtain ⟨c', hrun⟩ := ih hrest
    exact ⟨c', foldlM_cons_ok.2 ⟨c₁, h₁, hrun⟩⟩

theorem Stands.sendPackage (hs : Stands bufs c k) (hsent : sendPackage h c p (validLength h p) = .ok c') :
    Stands bufs c' ((messageLengths h p).foldl Place.after k) := by
  by_cases hg : Given h p
  · rw [sendPackage_eq hg] at hsent
    rw [← lens_builds hg, List.foldl_map]
    exact foldlM_foldl (Stands bufs) hsent hs fun c k b c' hb hc hbuild => hc.after (valid_builds b hb) hbuild
  · obtain ⟨e, he⟩ := sendPackage_not_given (c := c) hg
    rw [he] at hsent
    cases hsent

theorem Stands.inRange (hs : Stands bufs c k) : c.fIndex ≠ c.frames.length := by
  obtain ⟨q, hq, -⟩ := hs.start
  rw [hs.frame, frames_length hs.frames]
  exact Nat.ne_of_lt (List.getElem?_eq_some_iff.1 hq).1

theorem Stands.queue_iff {cap i totalSend : Nat} (hs : Stands bufs c k) :
    QueueContained h cap theQueue i totalSend c ↔ QueueFits h bufs.length cap theQueue i totalSend k := by
  induction theQueue generalizing i totalSend c k with
  | nil => exact Iff.rfl
  | cons p theQueue ih =>
    rw [QueueContained, QueueFits]
    refine imp_congr_right fun _ => ?_
    by_cases hg : Given h p
    · rw [hs.contained_iff valid_builds, lens_builds hg]
      refine Iff.trans (and_congr_right fun hfits => ?_) ⟨fun hrest _ => hrest, fun hrest => hrest hg⟩
      rw [← lens_builds hg, ← hs.contained_iff valid_builds] at hfits
      obtain ⟨c', hrun⟩ := hfits.run
      rw [← sendPackage_eq hg] at hrun
      have hs' := hs.sendPackage hrun
      refine ⟨?_, ?_⟩
      · intro hrest
        exact (ih hs').1 (hrest c' hrun hs'.inRange)
      · intro hrest c₁ hrun₁ _
        cases hrun.symm.trans hrun₁
        exact (ih hs').2 hrest
    · refine iff_of_true ⟨?_, fun c' hsent => ?_⟩ fun hg' => absurd hg' hg
      · rw [builds_not_given hg]
        trivial
      · obtain ⟨e, he⟩ := sendPackage_not_given (c := c) hg
        rw [he] at hsent
        cases hsent

theorem Stands.start_of {m : Mem} {first : MsgFrame} {frames : List MsgFrame} (hlen : ∀ fr ∈ first :: frames, fr.len = 4096) :
    Stands ((first :: frames).map MsgFrame.m_buf) ⟨m, first :: frames, first.m_buf, 0, 0⟩ ⟨0, 0, 0⟩ := by
  refine ⟨?_, rfl, rfl, Nat.zero_lt_succ _, first.m_buf, rfl, by simp⟩
  rw [List.map_map]
  exact List.map_congr_left fun fr hfr => congrArg (·, fr.m_buf) (hlen fr hfr)

/-- `Packaging` stays inside frames of 4096 bytes just when every message of every package that the test lets through
fits. -/
theorem packaging_contained_iff {m : Mem} {frames : List MsgFrame} (hne : frames ≠ []) (hlen : ∀ fr ∈ frames, fr.len = 4096) :
    PackagingContained h m frames theQueue ↔
      QueueFits h frames.length (frames.map MsgFrame.capacity).sum theQueue 0 0 ⟨0, 0, 0⟩ := by
  cases frames with
  | nil => exact absurd rfl hne
  | cons first frames =>
    rw [PackagingContained]
    simp only [List.getElem?_cons_zero, Option.mem_def, Option.some.injEq, forall_eq']
    rw [(Stands.start_of hlen).queue_iff, List.length_map]

/-- Two packages in two frames; the second is cut between them. -/
theorem packaging_contained_two : PackagingContained .identity (fun _ => 0) (sendFrames 1000 2) [zeros 3000, zeros 2000] :=
  (packaging_contained_iff (by decide) (by decide)).2 (by decide +kernel)

/-- 4072 bytes and one head fill a frame; but they go in five messages. -/
theorem not_packaging_contained : ¬PackagingContained .identity (fun _ => 0) (sendFrames 1000 1) [zeros 4072] := by
  intro hc
  have hs : Stands [1000] ⟨fun _ => 0, sendFrames 1000 1, 1000, 0, 0⟩ ⟨0, 0, 0⟩ :=
    ⟨rfl, rfl, rfl, by decide, 1000, rfl, rfl⟩
  have hfits := hs.queue_iff.1 (hc _ rfl)
  revert hfits
  decide +kernel

end PackageProxy
