/-
What one call of `BuildPackage` does (Net/DataHandle.h), over frames that are
slices of one buffer.

`build_at`: the cursor and the valid lengths after the call. The valid bytes
grow by the whole message, but the offset falls behind by what the first of
two frames held of a cut head (`lag`).

`build_mem`: the bytes written are the head and the data, in one piece. The
lengths in the head are the ones of the chunk except where the cut falls right
before one of them: its two bytes are then written to one address (`headAt`).
-/
import XFramework.Net.Packaging
import XFramework.Lib.Fallible

open Bytes Fallible

namespace PackageProxy

/-- The frames while frame `f` is being filled, `v` bytes of it valid. -/
def framesAt (base : Int) (n f v : Nat) : List MsgFrame :=
  (List.range n).map fun i : Nat =>
    ⟨4096, if i < f then 4096 else if i = f then v else 0, i, base + 4096 * (i : Int)⟩

variable {base : Int} {n f v : Nat}

theorem sendFrames_eq (base : Int) (n : Nat) : sendFrames base n = framesAt base n 0 0 := by
  simp [sendFrames, framesAt]

@[simp] theorem length_framesAt (base : Int) (n f v : Nat) : (framesAt base n f v).length = n := by
  simp [framesAt]

theorem getElem?_framesAt (base : Int) (n f v i : Nat) :
    (framesAt base n f v)[i]? = if i < n then
      some ⟨4096, if i < f then 4096 else if i = f then v else 0, i, base + 4096 * (i : Int)⟩ else none := by
  by_cases hi : i < n
  · simp [framesAt, hi]
  · simp [framesAt, hi]

theorem frameAt_ok {i : Nat} {fr : MsgFrame} (h : frameAt (framesAt base n f v) i = .ok fr) :
    i < n ∧ fr.len = 4096 ∧ fr.m_buf = base + 4096 * (i : Int) := by
  simp only [frameAt, getElem?_framesAt] at h
  by_cases hi : i < n
  · rw [if_pos hi] at h
    cases h
    exact ⟨hi, rfl, rfl⟩
  · rw [if_neg hi] at h
    cases h

theorem frameAt_framesAt (h : f < n) : frameAt (framesAt base n f v) f = .ok ⟨4096, v, f, base + 4096 * (f : Int)⟩ := by
  simp only [frameAt, getElem?_framesAt, if_pos h, lt_irrefl, if_false, if_true]

/-- The frame being filled gets its valid length. -/
theorem resetValid_framesAt {w : Nat} (hw : w < 65536) :
    resetValid (framesAt base n f v) f w = framesAt base n f w := by
  refine List.ext_getElem? fun i => ?_
  simp only [resetValid, List.getElem?_modify, getElem?_framesAt]
  by_cases hi : i < n
  · by_cases hf : f = i
    · subst hf
      simp [hi, MsgFrame.resetValidDataLen, Nat.mod_eq_of_lt hw]
    · simp only [if_pos hi, if_neg hf, if_neg (Ne.symm hf)]
      rfl
  · simp [hi]

/-- A full frame is the same as the next one empty. -/
theorem framesAt_full (base : Int) (n f : Nat) : framesAt base n f 4096 = framesAt base n (f + 1) 0 := by
  refine List.map_congr_left fun i _ => ?_
  rcases Nat.lt_trichotomy i f with h | h | h
  · simp [h, Nat.lt_succ_of_lt h]
  · simp [h]
  · rw [if_neg (by omega), if_neg (by omega), if_neg (by omega)]
    split <;> rfl

/-- What goes out is a prefix of the buffer. -/
theorem validBytes_framesAt (m : Mem) (h : f < n) :
    (((framesAt base n f v).take (f + 1)).flatMap fun fr => read m fr.m_buf fr.m_nValidLen) =
      read m base (4096 * f + v) := by
  have hfull : ∀ k ≤ f, (((List.range k).map fun i : Nat => read m (base + 4096 * (i : Int)) 4096).flatten) =
      read m base (4096 * k) := by
    intro k hk
    induction k with
    | zero => rfl
    | succ k ih =>
      rw [List.range_succ, List.map_append, List.flatten_append, ih (by omega), Nat.mul_succ, read_append]
      simp
  have htake : (framesAt base n f v).take (f + 1) = (List.range (f + 1)).map fun i : Nat =>
      (⟨4096, if i < f then 4096 else if i = f then v else 0, i, base + 4096 * (i : Int)⟩ : MsgFrame) := by
    rw [framesAt, ← List.map_take, List.take_range, Nat.min_eq_left (by omega)]
  rw [htake, List.flatMap_map, List.range_succ, List.flatMap_append, read_append, ← hfull f le_rfl]
  refine congrArg₂ (· ++ ·) ?_ ?_
  · rw [List.flatMap_def]
    refine congrArg List.flatten (List.map_congr_left fun i hi => ?_)
    rw [if_pos (List.mem_range.1 hi)]
  · simp

/-! ## Lengths in a head -/

/-- The head with the lengths of its frame filled in. -/
def withLengths (h : MsgHead) (dataLen frameLen : Nat) : MsgHead :=
  { h with nDataLen := .ofNat dataLen, nFrameLen := .ofNat frameLen }

/-- The room left in the frame at position `P` of the buffer. -/
def room (P : Nat) : Nat := 4096 - P % 4096

/-- How far the offset falls behind when a message is written at `P`. -/
def lag (P : Nat) : Nat := 24 - room P

/-- The head that `BuildPackage` leaves at a place with `available` bytes of room. -/
def headAt (available : Nat) (frame : MsgHead) (len : Nat) : MsgHead :=
  withLengths frame (if available = 6 then len / 256 else len)
    (if available = 12 then (24 + len) / 256 else 24 + len)

theorem lo_ofNat (v : Nat) : MsgHead.lo (.ofNat v) = UInt8.ofNat v := by
  rw [MsgHead.lo, UInt16.toNat_ofNat']
  refine UInt8.toNat_inj.1 ?_
  rw [UInt8.toNat_ofNat', UInt8.toNat_ofNat']
  omega

theorem hi_ofNat (v : Nat) : MsgHead.hi (.ofNat v) = UInt8.ofNat (v / 256) := by
  rw [MsgHead.hi, UInt16.toNat_ofNat']
  refine UInt8.toNat_inj.1 ?_
  rw [UInt8.toNat_ofNat', UInt8.toNat_ofNat']
  omega

theorem leBytes_two (v : Nat) : leBytes 2 v = [MsgHead.lo (.ofNat v), MsgHead.hi (.ofNat v)] := by
  rw [lo_ofNat, hi_ofNat]
  rfl

/-- A head starts with the sixteen bytes of its small fields. -/
theorem bytes_withLengths (h : MsgHead) (d l : Nat) : (withLengths h d l).bytes =
    [h.tFrames, h.nFrames, h.nVerifyLen, h.nProtoType, h.nReserved, h.nRetState,
      MsgHead.lo (.ofNat d), MsgHead.hi (.ofNat d), MsgHead.lo h.tSrcLen, MsgHead.hi h.tSrcLen,
      MsgHead.lo h.tDataLen, MsgHead.hi h.tDataLen, MsgHead.lo (.ofNat l), MsgHead.hi (.ofNat l),
      MsgHead.lo h.nUserProto, MsgHead.hi h.nUserProto] ++ leBytes 8 h.ntimestamp.toUInt64.toNat := rfl

theorem patch_pair (m : Mem) (q : Int) (w : Nat) : patch m (q, q + 1) w = writeLE m q 2 w := by
  rw [writeLE, leBytes_two, patch]
  exact write_append m q [_] [_]

/-- Both bytes to one address: the high one stays. -/
theorem patch_same (m : Mem) (q : Int) (w : Nat) : patch m (q, q) w = writeLE m q 1 (w / 256) := by
  have hone : 0 + [MsgHead.hi (.ofNat w)].length ≤ [MsgHead.lo (.ofNat w)].length := le_rfl
  have h := write_inside m q hone
  rw [Nat.cast_zero, add_zero] at h
  rw [patch, h, hi_ofNat]
  rfl

section Patched

variable (m : Mem) (p : Int) (h : MsgHead) (data : List UInt8)

/-- The data length is patched into its two bytes, or, where the head is cut right before it,
its high byte into the first. -/
theorem patch_dataLen (d l available : Nat) (hd : d < 65536) :
    patch (write m p ((withLengths h 0 l).bytes ++ data)) (p + 6, if available = 6 then p + 6 else p + 7) d =
      write m p ((withLengths h (if available = 6 then d / 256 else d) l).bytes ++ data) := by
  have hzero : MsgHead.hi 0 = UInt8.ofNat (d / 256 / 256) := by
    rw [Nat.div_div_eq_div_mul, Nat.div_eq_of_lt hd]
    rfl
  rw [bytes_withLengths, bytes_withLengths]
  generalize leBytes 8 h.ntimestamp.toUInt64.toNat = stamp
  by_cases ha : available = 6
  · rw [if_pos ha, if_pos ha, patch_same, writeLE]
    refine (write_inside m p (i := 6) (by simp)).trans ?_
    simp [hzero, leBytes, lo_ofNat, hi_ofNat]
  · rw [if_neg ha, if_neg ha, show p + 7 = p + 6 + 1 by ring, patch_pair, writeLE, leBytes_two]
    refine (write_inside m p (i := 6) (by simp)).trans ?_
    simp

theorem patch_frameLen (d l available : Nat) (hl : l < 65536) :
    patch (write m p ((withLengths h d 0).bytes ++ data)) (p + 12, if available = 12 then p + 12 else p + 13) l =
      write m p ((withLengths h d (if available = 12 then l / 256 else l)).bytes ++ data) := by
  have hzero : MsgHead.hi 0 = UInt8.ofNat (l / 256 / 256) := by
    rw [Nat.div_div_eq_div_mul, Nat.div_eq_of_lt hl]
    rfl
  rw [bytes_withLengths, bytes_withLengths]
  generalize leBytes 8 h.ntimestamp.toUInt64.toNat = stamp
  by_cases ha : available = 12
  · rw [if_pos ha, if_pos ha, patch_same, writeLE]
    refine (write_inside m p (i := 12) (by simp)).trans ?_
    simp [hzero, leBytes, lo_ofNat, hi_ofNat]
  · rw [if_neg ha, if_neg ha, show p + 13 = p + 12 + 1 by ring, patch_pair, writeLE, leBytes_two]
    refine (write_inside m p (i := 12) (by simp)).trans ?_
    simp

end Patched

/-- Where the length bytes lie when the next frame follows in memory. -/
theorem lengthAddrs_contiguous {available : Nat} (ha : available < 24) (p : Int) :
    lengthAddrs available p (p + available) =
      ⟨(p + 12, if available = 12 then p + 12 else p + 13), (p + 6, if available = 6 then p + 6 else p + 7)⟩ := by
  have hnext : ∀ k : Int, p + available + k - available = p + k := fun k => by ring
  have h₁₃ : p + 12 + 1 = p + 13 := by ring
  have h₇ : p + 6 + 1 = p + 7 := by ring
  simp only [lengthAddrs, hnext, h₁₃, h₇]
  split_ifs <;> first | omega | rfl | (subst available; rfl)

/-! ## One call -/

/-- The cursor stands at position `P` of the buffer as far as the offsets go, and `s` bytes are
valid. -/
structure At (base : Int) (n : Nat) (c : Cursor) (P s : Nat) : Prop where
  frames : c.frames = framesAt base n c.fIndex (s - 4096 * c.fIndex)
  begun : 4096 * c.fIndex ≤ s
  offset : P = 4096 * c.fIndex + c.nOffset
  below : c.nOffset < 4096
  inRange : c.fIndex < n

variable {c c' : Cursor} {P s : Nat} {frame : MsgHead} {data : List UInt8}

theorem At.room_eq (h : At base n c P s) : room P = 4096 - c.nOffset := by
  have := h.below
  rw [room, h.offset]
  omega

theorem at_framesAt {m : Mem} {q : Int} {o : Nat} (hn : f < n) (ho : o < 4096) (hP : P = 4096 * f + o)
    (hs : s = 4096 * f + v) : At base n ⟨m, framesAt base n f v, q, f, o⟩ P s where
  frames := by
    rw [hs, Nat.add_sub_cancel_left]
  begun := by
    rw [hs]
    exact Nat.le_add_right _ _
  offset := hP
  below := ho
  inRange := hn

/-- The message lies at the cursor in one piece, and the cursor behind it. -/
def Wrote (base : Int) (c c' : Cursor) (P : Nat) (head : MsgHead) (data : List UInt8) : Prop :=
  c.pStart = base + P →
    c'.pStart = base + (P + 24 + data.length : Nat) ∧ c'.mem = write c.mem c.pStart (head.bytes ++ data)

theorem whole_at (h : At base n c P s) (hd : data.length + 24 ≤ room P)
    (hb : buildWhole c frame data (room P) = .ok c') :
    At base n c' (P + 24 + data.length) (P + 24 + data.length) ∧
      Wrote base c c' P (withLengths frame data.length (24 + data.length)) data := by
  have hmem : write (write c.mem c.pStart (withLengths frame data.length (24 + data.length)).bytes) (c.pStart + 24) data =
      write c.mem c.pStart ((withLengths frame data.length (24 + data.length)).bytes ++ data) := by
    exact write_append_of (by rw [MsgHead.length_bytes]; rfl)
  have hroom := h.room_eq
  have hoff := h.offset
  have hlt := h.below
  simp only [buildWhole] at hb
  rw [h.frames, resetValid_framesAt (by omega)] at hb
  by_cases hfull : data.length + 24 = room P
  · rw [if_pos hfull, show c.nOffset + (data.length + 24) = 4096 by omega, framesAt_full, bind_eq_ok] at hb
    obtain ⟨next, hnext, hb⟩ := hb
    obtain ⟨hn, -, hbuf⟩ := frameAt_ok hnext
    cases hb
    refine ⟨at_framesAt hn (by omega) (by omega) (by omega), fun hp => ⟨?_, hmem⟩⟩
    dsimp only
    omega
  · rw [if_neg hfull] at hb
    cases hb
    refine ⟨at_framesAt h.inRange (by omega) (by omega) (by omega), fun hp => ⟨?_, hmem⟩⟩
    dsimp only
    omega

/-- The data in two parts and the lengths last come to one piece. -/
theorem splitData_write (m : Mem) (p : Int) (frame : MsgHead) {available : Nat} {next : Int} (hd : data.length ≤ 1000)
    (hhead : 24 ≤ available) (hlong : available < data.length + 24) (hnext : next = p + available) :
    writeLE (writeLE (write (write (write m p (withLengths frame 0 0).bytes) (p + 24) (data.take (available - 24)))
      next ((data.drop (available - 24)).take (data.length - (available - 24))))
      (p + 12) 2 (24 + (available - 24 + (data.length - (available - 24)))))
      (p + 6) 2 (available - 24 + (data.length - (available - 24))) =
      write m p ((withLengths frame data.length (24 + data.length)).bytes ++ data) := by
  have hbytes : (withLengths frame 0 0).bytes.length = 24 := MsgHead.length_bytes _
  have htake : (data.take (available - 24)).length = available - 24 := List.length_take_of_le (by omega)
  have hrest : (data.drop (available - 24)).take (data.length - (available - 24)) = data.drop (available - 24) :=
    List.take_of_length_le (by rw [List.length_drop])
  have hjoin : write (write (write m p (withLengths frame 0 0).bytes) (p + 24) (data.take (available - 24)))
      next ((data.drop (available - 24)).take (data.length - (available - 24))) =
      write m p ((withLengths frame 0 0).bytes ++ data) := by
    have hnextAt : next = p + ((withLengths frame 0 0).bytes ++ data.take (available - 24)).length := by
      rw [List.length_append, hbytes, htake, hnext]
      omega
    rw [hrest, write_append_of (b := p + 24) (by rw [hbytes]; rfl), write_append_of hnextAt, List.append_assoc,
      List.take_append_drop]
  have hsent : available - 24 + (data.length - (available - 24)) = data.length := by omega
  have h12 := patch_frameLen m p frame data 0 (24 + data.length) 24 (by omega)
  have h6 := patch_dataLen m p frame data data.length (24 + data.length) 24 (by omega)
  rw [hjoin, hsent, ← patch_pair, ← patch_pair, show p + 12 + 1 = p + 13 by ring, show p + 6 + 1 = p + 7 by ring]
  rw [if_neg (by omega), if_neg (by omega)] at h12 h6
  rw [h12, h6]

theorem splitData_at (h : At base n c P s) (hd : data.length ≤ 1000) (hroom' : 24 ≤ room P)
    (hlong : room P < data.length + 24) (hb : buildSplitData c (withLengths frame 0 0) data 4096 (room P) = .ok c') :
    At base n c' (P + 24 + data.length) (P + 24 + data.length) ∧
      Wrote base c c' P (withLengths frame data.length (24 + data.length)) data := by
  have hroom := h.room_eq
  have hoff := h.offset
  have hlt := h.below
  simp only [buildSplitData] at hb
  rw [h.frames, resetValid_framesAt (by omega), framesAt_full, length_framesAt] at hb
  by_cases hlast : c.fIndex + 1 = n
  · rw [if_pos hlast] at hb
    cases hb
  · rw [if_neg hlast, bind_eq_ok] at hb
    obtain ⟨next, hnext, hb⟩ := hb
    obtain ⟨hn, -, hbuf⟩ := frameAt_ok hnext
    have hleft : (if data.length - (room P - 24) > 1000 - (room P - 24) then 1000 - (room P - 24)
        else data.length - (room P - 24)) = data.length - (room P - 24) := if_neg (by omega)
    rw [hleft, resetValid_framesAt (by omega)] at hb
    cases hb
    refine ⟨at_framesAt hn (by omega) (by omega) (by omega), fun hp => ⟨?_, ?_⟩⟩
    · dsimp only
      omega
    · rw [hp]
      refine splitData_write c.mem _ frame hd hroom' hlong ?_
      rw [hbuf]
      omega

theorem splitHead_at (h : At base n c P s) (hd : data.length ≤ 1000) (hshort : room P < 24)
    (hb : buildSplitHead c (withLengths frame 0 0) data 4096 (room P) = .ok c') :
    At base n c' (P + room P + data.length) (P + 24 + data.length) ∧
      Wrote base c c' P (headAt (room P) frame data.length) data := by
  have hroom := h.room_eq
  have hoff := h.offset
  have hlt := h.below
  simp only [buildSplitHead] at hb
  rw [h.frames, resetValid_framesAt (by omega), framesAt_full, bind_eq_ok] at hb
  obtain ⟨next, hnext, hb⟩ := hb
  obtain ⟨hn, -, hbuf⟩ := frameAt_ok hnext
  have hlast : (if data.length > 1000 then 1000 else data.length) = data.length := if_neg (by omega)
  rw [hlast, List.take_length, resetValid_framesAt (by omega)] at hb
  cases hb
  refine ⟨at_framesAt hn (by omega) (by omega) (by omega), fun hp => ⟨?_, ?_⟩⟩
  · dsimp only
    omega
  · have hnextAt : next.m_buf = c.pStart + (room P : Nat) := by
      rw [hbuf, hp]
      omega
    have hjoin : write (write (write c.mem c.pStart ((withLengths frame 0 0).bytes.take (room P))) (c.pStart + (room P : Nat))
        ((withLengths frame 0 0).bytes.drop (room P))) (c.pStart + (room P : Nat) + (24 - room P : Nat)) data =
        write c.mem c.pStart ((withLengths frame 0 0).bytes ++ data) := by
      have hlen : ((withLengths frame 0 0).bytes.take (room P)).length = room P :=
        List.length_take_of_le (by rw [MsgHead.length_bytes]; omega)
      rw [write_append_of (by rw [List.length_drop, MsgHead.length_bytes]), write_append_of (by rw [hlen]),
        ← List.append_assoc, List.take_append_drop]
    rw [hnextAt, hjoin, lengthAddrs_contiguous hshort, patch_frameLen _ _ _ _ _ _ _ (by omega),
      patch_dataLen _ _ _ _ _ _ _ (by omega)]
    rfl

theorem headAt_of_room {available len : Nat} (h : 24 ≤ available) :
    headAt available frame len = withLengths frame len (24 + len) := by
  rw [headAt, if_neg (by omega), if_neg (by omega)]

/-- One call of `BuildPackage` for a chunk of at most 1000 bytes. -/
theorem build_at {pSrc : Option (List UInt8)} {nFrameNo srcLen tf : Nat} {p : NetPackage} (h : At base n c P s)
    (hd : (pSrc.getD []).length ≤ 1000) (hb : buildPackage c pSrc nFrameNo srcLen tf p = .ok c') :
    At base n c' (P + 24 + (pSrc.getD []).length - lag P) (P + 24 + (pSrc.getD []).length) ∧
      Wrote base c c' P (headAt (room P) (frameHead nFrameNo srcLen tf p) (pSrc.getD []).length) (pSrc.getD []) := by
  have hcur : frameAt c.frames c.fIndex = .ok ⟨4096, s - 4096 * c.fIndex, c.fIndex, base + 4096 * (c.fIndex : Int)⟩ := by
    rw [h.frames]
    exact frameAt_framesAt h.inRange
  simp only [buildPackage, bind_eq_ok] at hb
  obtain ⟨cur, hcur', hb⟩ := hb
  rw [hcur] at hcur'
  cases hcur'
  have hroom : 4096 - c.nOffset = room P := h.room_eq.symm
  simp only [MsgFrame.capacity, hroom] at hb
  generalize pSrc.getD [] = data at hb hd ⊢
  split_ifs at hb with hnull hfit hhead
  · have hlag : P + 24 + data.length - lag P = P + 24 + data.length := by
      rw [lag]
      omega
    rw [hlag, headAt_of_room (by omega)]
    exact whole_at h hfit hb
  · have hlag : P + 24 + data.length - lag P = P + 24 + data.length := by
      rw [lag]
      omega
    rw [hlag, headAt_of_room hhead]
    exact splitData_at h hd hhead (by omega) hb
  · have hlag : P + 24 + data.length - lag P = P + room P + data.length := by
      rw [lag]
      omega
    rw [hlag]
    exact splitHead_at h hd (by omega) hb

end PackageProxy
