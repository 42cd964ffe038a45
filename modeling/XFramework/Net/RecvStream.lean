/-
What the calls of a buffer make of a stream of frames (Net/PackPerData.cpp).

The stream is a list of frames, each a head and the chunk it describes, cut
anywhere into completions. `joinPrev_ok` says what becomes of a part of a
frame that was left over, `recvOwn_whole` and `recvOwn_part` what `RecvData`
makes of the bytes of its own buffer, and `otherFrames_eq` which frames are
found behind the first.
-/
import XFramework.Net.RecvPass
import XFramework.Net.RecvFrames

open Bytes Fallible

/-- A frame on the wire: a message of a package behind a head that describes it. -/
structure Framed where
  head : MsgHead
  msg : Message
  describes : Message.Describes head msg
  mem : msg ∈ msg.pkg.messages
  sized : msg.pkg.Sized

namespace Framed

def bytes (f : Framed) : List UInt8 := f.head.bytes ++ f.msg.chunk

def length (f : Framed) : Nat := 24 + f.msg.chunk.length

variable {f : Framed} {m : Mem} {p : Int}

@[simp] theorem length_bytes (f : Framed) : f.bytes.length = f.length := by
  rw [bytes, List.length_append, MsgHead.length_bytes, length]

theorem length_le (f : Framed) : f.length ≤ 1024 := by
  have := NetPackage.length_chunk f.mem
  rw [length]
  omega

theorem le_length (f : Framed) : 24 ≤ f.length := Nat.le_add_right ..

theorem chunk_le (f : Framed) : f.msg.chunk.length ≤ f.msg.pkg.m_len := by
  obtain ⟨c, -, hc⟩ := List.mem_map.1 f.mem
  have hchunk := congrArg (fun g => g.chunk.length) hc
  simp only [List.length_take, List.length_drop] at hchunk
  rw [← f.sized, NetPackage.data, ← hchunk]
  omega

theorem nFrameLen (f : Framed) : f.head.nFrameLen.toNat = f.length := f.describes.nFrameLen

/-- The frame, without the package it belongs to. -/
def wire (f : Framed) : WireFrame := ⟨f.head, f.msg.chunk, f.describes.nDataLen, f.describes.nFrameLen⟩

/-- The head of a frame whose first 24 bytes lie in memory. -/
theorem load (h : Lies m p (f.bytes.take 24)) : MsgHead.load m p = f.head := f.wire.load h

theorem load_of_lies (h : Lies m p f.bytes) : MsgHead.load m p = f.head := load (h.take 24)

/-- No check of `RecvData` fails for the head. -/
theorem checked (f : Framed) : f.wire.Checked where
  tFrames hzero := by
    have htotal := f.describes.tFrames
    rw [show f.head.tFrames = 0 from hzero, (NetPackage.total_of_mem f.mem).1, NetPackage.chunkCount] at htotal
    simp at htotal
    omega
  sameLen := UInt16.toNat_inj.1 (f.describes.tSrcLen.trans f.describes.tDataLen.symm)
  data_le := f.describes.tDataLen.symm ▸ f.chunk_le

/-- So many bytes of the frame may be left over: all of them only if it has no data. -/
def HasLeft (f : Framed) (e : Nat) : Prop := e ≤ f.length ∧ (e = f.length → e = 24)

end Framed

/-- The bytes of a stream. -/
def streamBytes (fs : List Framed) : List UInt8 := fs.flatMap Framed.bytes

theorem streamBytes_cons (f : Framed) (fs : List Framed) : streamBytes (f :: fs) = f.bytes ++ streamBytes fs := rfl

theorem streamBytes_append (fs fs' : List Framed) : streamBytes (fs ++ fs') = streamBytes fs ++ streamBytes fs' :=
  List.flatMap_append

namespace PackPerData

/-! ## A part of a frame that was left over -/

variable {m : Mem} {buf : Int} {prev : PackPerData} {f : Framed} {own : List UInt8} {e : Nat}

/-- What is known of a part of a frame that was left over. -/
structure LeftOver (m : Mem) (d : PackPerData) (f : Framed) (e : Nat) (p : Int) : Prop where
  pos : 0 < e
  len : d.m_nExtendLen = e
  start : d.m_pExtendStart = some p
  above : d.m_frame.m_buf ≤ p
  lies : Lies m p (f.bytes.take e)

/-- The new bytes complete the frame that was left over, and the others are moved to the start of their
buffer. -/
theorem joinPrev_ok {p : Int} (hleft : LeftOver m prev f e p) (he : e < f.length) (hnew : Lies m buf (f.bytes.drop e ++ own))
    (hown : own = [] ∨ 24 < own.length)
    (hapart : prev.m_frame.m_buf + f.length ≤ buf ∨ buf + (f.length - e + own.length : Nat) ≤ prev.m_frame.m_buf) :
    ∃ m', joinPrev m buf prev (f.length - e + own.length) =
        .ok ⟨{ prev with m_pExtendStart := none, m_isFinish := true, m_nExtendLen := 0 }, m', own.length, true⟩ ∧
      Lies m' prev.m_frame.m_buf f.bytes ∧ Lies m' buf own ∧
      ∀ x, x < prev.m_frame.m_buf ∨ prev.m_frame.m_buf + f.length ≤ x →
        x < buf ∨ buf + (f.length - e + own.length : Nat) ≤ x → m' x = m x := by
  have hlen : (f.bytes.take e).length = e := List.length_take_of_le (by rw [Framed.length_bytes]; omega)
  have hmoved : prev.moveExtendData m = ({ prev with m_pExtendStart := none }, moveBytes m prev.m_frame.m_buf p e) := by
    simp only [moveExtendData, hleft.start, hleft.len]
    rw [if_pos hleft.pos]
  have hlies : Lies (moveBytes m prev.m_frame.m_buf p e) prev.m_frame.m_buf (f.bytes.take e) := by
    have := lies_moveBytes (q := prev.m_frame.m_buf) hleft.lies
    rwa [hlen] at this
  have hsum : (f.bytes.drop e ++ own).length = f.length - e + own.length := by
    rw [List.length_append, List.length_drop, Framed.length_bytes]
  have hnew' : Lies (moveBytes m prev.m_frame.m_buf p e) buf (f.bytes.drop e ++ own) := by
    refine hnew.moveBytes_other ?_
    rw [hsum]
    omega
  obtain ⟨m', hcopy, hfull, hrest, hsame⟩ := copyToPrev_ok f.checked he hlies hnew' (hown.imp_right (by omega)) hapart
  refine ⟨m', ?_, hfull, hrest, fun x hp hx => ?_⟩
  · have hone := joined_complete { prev with m_pExtendStart := none } (f.length - e) own.length (WireFrame.load_of_lies hfull)
      f.checked (by
        have := f.length_le
        dsimp only
        rw [hleft.len, Nat.add_sub_cancel' he.le]
        exact Nat.mod_eq_of_lt (show f.length < 65536 by omega))
    rw [show f.wire.length = f.length from rfl] at hcopy
    rw [joinPrev, hmoved]
    simp only [hleft.len] at hone ⊢
    simp only [hcopy, bind, Except.bind, hone]
  · rw [hsame x hp hx, moveBytes_other (by omega)]

/-! ## The bytes of the own buffer -/

variable {d : PackPerData} {T q : Nat}

/-- The bytes of the frame are all there: those behind it are left over for now. -/
theorem recvOwn_whole (pPrev : Option Nat) (hlies : Lies m d.m_frame.m_buf (f.bytes.take 24)) (hlen : d.m_frame.len = 4096)
    (hT : T ≤ 4096) (hq : q < T) (hbig : 24 < T) (hfit : f.length ≤ T) (hrest : q = 0 ∨ T = f.length)
    (hzero : d.m_nExtendLen = 0) :
    d.recvOwn m (d.m_frame.m_buf + q) (T - q) pPrev = .ok ({ d with
      m_pDataCur := some d.m_frame.m_buf
      m_isFinish := true
      m_nExtendLen := T - f.length
      m_pExtendStart := some (d.m_frame.m_buf + f.length) }, none, 0) := by
  have hload := Framed.load hlies
  have hle := f.length_le
  have hge := f.le_length
  have hcur : d.m_frame.m_buf + (q : Int) + ((T - q : Nat) : Int) = d.m_frame.m_buf + T := by omega
  have hext : (if T - q > f.length then (T - q - f.length) % 65536 else d.m_nExtendLen) = T - f.length := by
    split_ifs
    · omega
    · omega
  simp only [recvOwn, hcur, hload, f.nFrameLen, hlen, hext]
  rw [if_neg (by omega), if_pos (by omega), if_neg (by omega), if_neg (by omega), if_pos (by omega), if_neg (by
    simp only [PERIOPOSTSIZE]
    omega)]

/-- A part of the frame is there: the rest of it is asked for. -/
theorem recvOwn_part (pPrev : Option Nat) (hlies : Lies m d.m_frame.m_buf (f.bytes.take 24)) (hlen : d.m_frame.len = 4096)
    (hq : q < T) (hbig : 24 < T) (hshort : T < f.length) :
    d.recvOwn m (d.m_frame.m_buf + q) (T - q) pPrev = .ok ({ d with m_pDataCur := some (d.m_frame.m_buf + T) },
      some ⟨d.m_frame.m_buf + T, f.length - T, d.m_index, pPrev⟩, 2) := by
  have hload := Framed.load hlies
  have hle := f.length_le
  have hcur : d.m_frame.m_buf + (q : Int) + ((T - q : Nat) : Int) = d.m_frame.m_buf + T := by omega
  have hrest : (d.m_frame.m_buf + (f.length : Int) - (d.m_frame.m_buf + T)).toNat = f.length - T := by omega
  simp only [recvOwn, hcur, hload, f.nFrameLen, hlen, hrest]
  rw [if_neg (by omega), if_pos (by omega), if_neg (by omega), if_neg (by omega), if_neg (by omega)]

theorem recvOwn_none (d : PackPerData) (m : Mem) (pdata : Int) (pPrev : Option Nat) :
    d.recvOwn m pdata 0 pPrev = .ok ({ d with m_pDataCur := some pdata }, none, -3) := by
  simp [recvOwn]

/-! ## Further frames -/

/-- The frames of the stream that are whole in `ext` bytes, as far as `GetOtherFrameCount` finds them, and
how many bytes are left: 24 bytes are not looked at, even if they are a frame. -/
def whole : Nat → List Framed → List Framed × Nat
  | ext, [] => ([], ext)
  | ext, f :: fs =>
    if 24 < ext ∧ f.length ≤ ext then
      let r := whole (ext - f.length) fs
      (f :: r.1, r.2)
    else ([], ext)

/-- The frames, one behind the other. -/
def placed (index : Nat) : Int → List Framed → List MsgFrame
  | _, [] => []
  | p, f :: fs => ⟨f.msg.chunk.length, 0, index, p⟩ :: placed index (p + f.length) fs

theorem whole_prefix (ext : Nat) (fs : List Framed) : ∃ rest, fs = (whole ext fs).1 ++ rest ∧
    (streamBytes (whole ext fs).1).length + (whole ext fs).2 = ext ∧
    (ext ≤ (streamBytes fs).length → 0 < (whole ext fs).2 → ∃ f ∈ rest.head?, f.HasLeft (whole ext fs).2) := by
  induction fs generalizing ext with
  | nil =>
    refine ⟨[], rfl, Nat.zero_add ext, fun hext hpos => ?_⟩
    exact absurd hext (Nat.not_le.2 hpos)
  | cons f fs ih =>
    have hge := f.le_length
    rw [whole]
    split_ifs with hfit
    · obtain ⟨rest, hrest, hlen, hleft⟩ := ih (ext - f.length)
      refine ⟨rest, ?_, ?_, fun hext => hleft ?_⟩
      · dsimp only
        rw [List.cons_append, ← hrest]
      · dsimp only
        rw [streamBytes_cons, List.length_append, Framed.length_bytes, Nat.add_assoc, hlen, Nat.add_sub_cancel' hfit.2]
      · rw [streamBytes_cons, List.length_append, Framed.length_bytes] at hext
        omega
    · refine ⟨f :: fs, rfl, Nat.zero_add ext, fun _ _ => ⟨f, rfl, ?_, ?_⟩⟩
      · dsimp only
        omega
      · dsimp only
        omega

/-- The whole frames at the beginning of the bytes, and what is left of the next one. -/
theorem whole_cut (T : Nat) (fs : List Framed) : (streamBytes fs).take T =
    streamBytes (whole T fs).1 ++
      (streamBytes (fs.drop (whole T fs).1.length)).take (whole T fs).2 := by
  obtain ⟨rest, hsplit, hlen, -⟩ := whole_prefix T fs
  have hdrop : fs.drop (whole T fs).1.length = rest := (congrArg (List.drop _) hsplit).trans (List.drop_left ..)
  have hstream := streamBytes_append (whole T fs).1 rest
  rw [← hsplit] at hstream
  rw [hdrop, hstream, List.take_append, List.take_of_length_le (Nat.le.intro hlen), Nat.sub_eq_of_eq_add' hlen.symm]

theorem whole_cut_cons {T : Nat} {f : Framed} {fs : List Framed} (hle : f.length ≤ T) :
    (streamBytes (f :: fs)).take T = streamBytes (f :: (whole (T - f.length) fs).1) ++
      (streamBytes (fs.drop (whole (T - f.length) fs).1.length)).take (whole (T - f.length) fs).2 := by
  rw [streamBytes_cons, List.take_append, List.take_of_length_le (by rw [Framed.length_bytes]; exact hle), Framed.length_bytes,
    whole_cut, streamBytes_cons, List.append_assoc]

theorem otherFrames_eq {index fuel ext : Nat} {fs : List Framed} {p : Int} (hext : ext ≤ (streamBytes fs).length)
    (hlies : Lies m p ((streamBytes fs).take ext)) (hfuel : ext ≤ fuel) :
    otherFrames m index fuel p ext =
      (placed index p (whole ext fs).1, p + (streamBytes (whole ext fs).1).length, (whole ext fs).2) := by
  induction fs generalizing fuel ext p with
  | nil =>
    have hzero : ext = 0 := by simpa [streamBytes] using hext
    subst hzero
    cases fuel <;> simp [otherFrames, whole, placed, streamBytes]
  | cons f fs ih =>
    have hge := f.le_length
    cases fuel with
    | zero =>
      have hzero : ext = 0 := by omega
      subst hzero
      rw [otherFrames, whole, if_neg (by omega)]
      simp [placed, streamBytes]
    | succ fuel =>
      rw [otherFrames, whole]
      by_cases hbig : ext > 24
      · have hlen : ((streamBytes (f :: fs)).take ext).length = ext := List.length_take_of_le hext
        rw [streamBytes_cons] at hext hlies hlen
        have hhead : Lies m p (f.bytes.take 24) := by
          have := hlies.take 24
          rwa [List.take_take, Nat.min_eq_left (by omega), List.take_append_of_le_length (by rw [Framed.length_bytes]; omega)]
            at this
        have hdata : (MsgHead.load m p).nDataLen.toNat = f.msg.chunk.length := by
          rw [Framed.load hhead]
          exact f.describes.nDataLen
        rw [if_pos hbig]
        dsimp only
        rw [hdata]
        by_cases hfit : f.length ≤ ext
        · have hfit' : ext - 24 ≥ f.msg.chunk.length := by
            rw [Framed.length] at hfit
            omega
          have hrest : Lies m (p + f.length) ((streamBytes fs).take (ext - f.length)) := by
            have := hlies.drop (n := f.length) (by rw [hlen]; exact hfit)
            rwa [List.drop_take, List.drop_left' (Framed.length_bytes f)] at this
          have hrest' : ext - f.length ≤ (streamBytes fs).length := by
            rw [List.length_append, Framed.length_bytes] at hext
            omega
          have hnext : ext - 24 - f.msg.chunk.length = ext - f.length := by
            rw [Framed.length]
            omega
          rw [if_pos hfit', if_pos ⟨hbig, hfit⟩, hnext]
          have hind := ih hrest' hrest (by omega : ext - f.length ≤ fuel)
          rw [Framed.length] at hind
          rw [Framed.length, hind]
          simp only [placed, streamBytes_cons, List.length_append, Framed.length_bytes, Framed.length]
          congr 2
          push_cast
          ring
        · have hfit' : ¬ext - 24 ≥ f.msg.chunk.length := by
            rw [Framed.length] at hfit
            omega
          rw [if_neg hfit', if_neg fun h => hfit h.2]
          simp [placed, streamBytes]
      · rw [if_neg hbig, if_neg fun h => hbig h.1]
        simp [placed, streamBytes]

end PackPerData
