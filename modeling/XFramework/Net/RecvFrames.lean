/-
Frames in the buffers of a session (Net/PackPerData.cpp).

A frame is a head and the data whose length it names. `RecvData` completes a
frame that was left over in the buffer before from the bytes that come next
(`recvData_completes_iff`), and `GetOtherFrameCount` finds the frames behind
the first one of a buffer (`getOtherFrameCount_iff`).
-/
import XFramework.Net.RecvSession

open Bytes Fallible

/-- A frame as it comes: a head and the data whose length it names. -/
structure WireFrame where
  head : MsgHead
  data : List UInt8
  dataLen : head.nDataLen.toNat = data.length
  frameLen : head.nFrameLen.toNat = 24 + data.length

namespace WireFrame

def bytes (f : WireFrame) : List UInt8 := f.head.bytes ++ f.data

def length (f : WireFrame) : Nat := 24 + f.data.length

/-- The frame is one of a package whose length is not changed on the way. -/
structure Checked (f : WireFrame) : Prop where
  tFrames : f.head.tFrames ≠ 0
  sameLen : f.head.tSrcLen = f.head.tDataLen
  data_le : f.data.length ≤ f.head.tDataLen.toNat

variable {f : WireFrame} {m : Mem} {p : Int}

@[simp] theorem length_bytes (f : WireFrame) : f.bytes.length = f.length := by
  simp [bytes, length]

theorem le_length (f : WireFrame) : 24 ≤ f.length := Nat.le_add_right ..

theorem nFrameLen (f : WireFrame) : f.head.nFrameLen.toNat = f.length := f.frameLen

/-- The head of a frame whose first 24 bytes lie in memory. -/
theorem load (h : Lies m p (f.bytes.take 24)) : MsgHead.load m p = f.head := by
  have htake : f.bytes.take 24 = f.head.bytes := List.take_left' (MsgHead.length_bytes _)
  rw [htake, Lies, MsgHead.length_bytes] at h
  rw [MsgHead.load, h]
  have := MsgHead.ofBytes_bytes f.head []
  rwa [List.append_nil] at this

theorem load_of_lies (h : Lies m p f.bytes) : MsgHead.load m p = f.head := load (h.take 24)

/-- No check of `RecvData` fails for the head. -/
theorem Checked.check (hf : f.Checked) : checkHead f.head = .ok () := by
  have hle := hf.data_le
  simp only [checkHead, hf.sameLen, ne_eq, not_true, false_or, gt_iff_lt, UInt16.lt_iff_toNat_lt, f.dataLen, f.frameLen]
  rw [if_neg (by omega), if_neg (by omega)]

end WireFrame

/-- The bytes of the frames, one behind the other. -/
def wireBytes (fs : List WireFrame) : List UInt8 := fs.flatMap WireFrame.bytes

theorem wireBytes_cons (f : WireFrame) (fs : List WireFrame) : wireBytes (f :: fs) = f.bytes ++ wireBytes fs := rfl

theorem length_wireBytes_cons (f : WireFrame) (fs : List WireFrame) :
    (wireBytes (f :: fs)).length = f.length + (wireBytes fs).length := by
  simp [wireBytes_cons]

/-- A frame of one package of `n` zeros. -/
def WireFrame.zeros (n : Nat) (h : 24 + n < 65536) : WireFrame where
  head := ⟨1, 0, 0, 0, 0, 0, .ofNat n, .ofNat n, .ofNat n, .ofNat (24 + n), 0, 0⟩
  data := List.replicate n 0
  dataLen := by rw [List.length_replicate]; exact UInt16.toNat_ofNat_of_lt' (by show n < 65536; omega)
  frameLen := by rw [List.length_replicate]; exact UInt16.toNat_ofNat_of_lt' h

/-! ## Moving bytes -/

section

variable {m : Mem} {p q : Int} {bs : List UInt8} {n : Nat}

/-- Bytes that are moved lie where they were moved to. -/
theorem lies_moveBytes (h : Lies m p bs) : Lies (moveBytes m q p bs.length) q bs := by
  rw [moveBytes, h]
  exact lies_write ..

theorem moveBytes_other {x : Int} (h : x < q ∨ q + n ≤ x) : moveBytes m q p n x = m x :=
  write_other (by rw [length_read]; exact h)

theorem Bytes.Lies.moveBytes_other {r : Int} (h : Lies m p bs) (hd : p + bs.length ≤ q ∨ q + n ≤ p) :
    Lies (moveBytes m q r n) p bs := h.write_other (by rw [length_read]; exact hd)

end

namespace PackPerData

/-! ## A frame that was left over -/

section

variable {m : Mem} {p buf : Int} {f : WireFrame} {own bs : List UInt8} {k L : Nat}

/-- The head of the frame is completed first. -/
theorem completed_head (hprev : Lies m p (f.bytes.take k)) (hnew : Lies m buf bs) (hk : k < f.length) (hlong : 24 - k ≤ bs.length)
    (hbs : bs.take (24 - k) = (f.bytes.drop k).take (24 - k)) (hapart : p + f.length ≤ buf ∨ buf + bs.length ≤ p) :
    ∃ m', (if k < 24 then write m (p + k) (read m buf (24 - k)) else m) = m' ∧ Lies m' p (f.bytes.take k) ∧ Lies m' buf bs ∧
      (∀ x, x < p + k ∨ p + 24 ≤ x → m' x = m x) ∧ MsgHead.load m' p = f.head := by
  have hlen : (f.bytes.take k).length = k := List.length_take_of_le (by rw [WireFrame.length_bytes]; omega)
  have hge := f.le_length
  by_cases hshort : k < 24
  · have hread : read m buf (24 - k) = (f.bytes.drop k).take (24 - k) := by rw [hnew.read_eq hlong, hbs]
    have hcut : ((f.bytes.drop k).take (24 - k)).length = 24 - k :=
      List.length_take_of_le (by rw [List.length_drop, WireFrame.length_bytes]; omega)
    have hextend := hprev.extend ((f.bytes.drop k).take (24 - k))
    rw [hlen, ← List.take_add, Nat.add_sub_cancel' hshort.le] at hextend
    refine ⟨_, if_pos hshort, ?_, ?_, fun x hx => ?_, ?_⟩
    · rw [hread]
      exact hprev.write_other (.inl (by rw [hlen]))
    · rw [hread]
      refine hnew.write_other ?_
      rw [hcut]
      omega
    · rw [hread]
      refine write_other ?_
      rw [hcut]
      omega
    · rw [hread]
      exact WireFrame.load hextend
  · refine ⟨m, if_neg hshort, hprev, hnew, fun x _ => rfl, WireFrame.load ?_⟩
    have := hprev.take 24
    rwa [List.take_take, Nat.min_eq_left (by omega)] at this

/-- The new bytes complete the frame, and the others are moved to the start of their buffer. -/
theorem copyToPrev_ok (hf : f.Checked) (hk : k < f.length) (hprev : Lies m p (f.bytes.take k))
    (hnew : Lies m buf (f.bytes.drop k ++ own)) (hown : own = [] ∨ 24 < f.length - k + own.length)
    (hapart : p + f.length ≤ buf ∨ buf + (f.length - k + own.length : Nat) ≤ p) :
    ∃ m', copyToPrev m p buf k (f.length - k + own.length) = .ok (m', f.length - k, own.length) ∧ Lies m' p f.bytes ∧
      Lies m' buf own ∧ ∀ x, x < p ∨ p + f.length ≤ x → x < buf ∨ buf + (f.length - k + own.length : Nat) ≤ x → m' x = m x := by
  have hlen : (f.bytes.take k).length = k := List.length_take_of_le (by rw [WireFrame.length_bytes]; omega)
  have hdrop : (f.bytes.drop k).length = f.length - k := by rw [List.length_drop, WireFrame.length_bytes]
  have hsum : (f.bytes.drop k ++ own).length = f.length - k + own.length := by rw [List.length_append, hdrop]
  have hle := f.le_length
  have hrest := (lies_append.1 hnew).2
  rw [hdrop] at hrest
  by_cases hbig : f.length - k + own.length > 24
  · obtain ⟨m₁, hm₁, hprev₁, hnew₁, hsame₁, hload⟩ := completed_head hprev hnew hk (by rw [hsum]; omega)
      (List.take_append_of_le_length (by rw [hdrop]; omega)) (by rw [hsum]; exact hapart)
    have hcopy : ¬f.length ≤ k := by omega
    have henough : f.length - k + own.length ≥ f.length - k := Nat.le_add_right ..
    have hread : read m₁ buf (f.length - k) = f.bytes.drop k := by
      rw [hnew₁.read_eq (by rw [hsum]; omega), List.take_left' hdrop]
    have hfull : Lies (write m₁ (p + k) (f.bytes.drop k)) p f.bytes := by
      have := hprev₁.extend (f.bytes.drop k)
      rwa [hlen, List.take_append_drop] at this
    have hnew₂ : Lies (write m₁ (p + k) (f.bytes.drop k)) buf (f.bytes.drop k ++ own) := by
      refine hnew₁.write_other ?_
      rw [hsum, hdrop]
      omega
    have hrest₂ := (lies_append.1 hnew₂).2
    rw [hdrop] at hrest₂
    refine ⟨_, ?_, hfull.moveBytes_other ?_, lies_moveBytes hrest₂, fun x hp hx => ?_⟩
    · simp only [copyToPrev, if_pos hbig, hm₁, hload, if_neg hf.tFrames, hf.check, f.nFrameLen, if_neg hcopy,
        if_pos henough, hread, Nat.add_sub_cancel_left]
      rfl
    · rw [WireFrame.length_bytes]
      omega
    · rw [moveBytes_other (by omega), write_other (by rw [hdrop]; omega), hsame₁ x (by omega)]
  · have hnil : own = [] := hown.resolve_right hbig
    subst hnil
    rw [List.append_nil] at hnew
    have hread : read m buf (f.length - k) = f.bytes.drop k := by
      rw [hnew.read_eq hdrop.ge, List.take_of_length_le hdrop.le]
    have hfull : Lies (write m (p + k) (f.bytes.drop k)) p f.bytes := by
      have := hprev.extend (f.bytes.drop k)
      rwa [hlen, List.take_append_drop] at this
    refine ⟨_, ?_, hfull, rfl, fun x hp _ => write_other (by rw [hdrop]; omega)⟩
    rw [copyToPrev, if_neg hbig, List.length_nil, Nat.add_zero, hread]

/-- A completion of at most 24 bytes is copied whole, also behind the end of the frame. -/
theorem copyToPrev_head (h : L ≤ 24) : copyToPrev m p buf k L = .ok (write m (p + k) (read m buf L), L, 0) :=
  if_neg (Nat.not_lt.2 h)

/-- The new bytes do not complete the frame. -/
theorem copyToPrev_part (hf : f.Checked) (hbs : bs = (f.bytes.drop k).take L) (hL : k + L < f.length)
    (hprev : Lies m p (f.bytes.take k)) (hnew : Lies m buf bs) (hapart : p + f.length ≤ buf ∨ buf + L ≤ p) :
    copyToPrev m p buf k L = .ok (write m (p + k) bs, L, 0) := by
  have hlen : bs.length = L := by
    rw [hbs, List.length_take_of_le]
    rw [List.length_drop, WireFrame.length_bytes]
    omega
  have hread : read m buf L = bs := by rw [hnew.read_eq hlen.ge, List.take_of_length_le hlen.le]
  by_cases hbig : L > 24
  · obtain ⟨m₁, hm₁, hprev₁, hnew₁, hsame₁, hload⟩ := completed_head hprev hnew (by omega) (by omega) (by
      rw [hbs, List.take_take, Nat.min_eq_left (by omega)]) (by rw [hlen]; exact hapart)
    have hread₁ : read m₁ buf L = bs := by rw [hnew₁.read_eq hlen.ge, List.take_of_length_le hlen.le]
    have hsame : write m₁ (p + k) bs = write m (p + k) bs := by
      funext x
      rw [write, write]
      split_ifs with hx
      · rfl
      · exact hsame₁ x (by omega)
    have hcopy : ¬f.length ≤ k := by omega
    have hfew : ¬L ≥ f.length - k := by omega
    simp only [copyToPrev, if_pos hbig, hm₁, hload, if_neg hf.tFrames, hf.check, f.nFrameLen, if_neg hcopy, if_neg hfew, hread₁, hsame]
    rfl
  · rw [copyToPrev_head (Nat.not_lt.1 hbig), hread]

end

/-! ## The frames behind the first -/

/-- The frames, one behind the other, as `GetOtherFrameCount` enters them. -/
def framesAt (index : Nat) : Int → List WireFrame → List MsgFrame
  | _, [] => []
  | p, f :: fs => ⟨f.data.length, 0, index, p⟩ :: framesAt index (p + f.length) fs

@[simp] theorem length_framesAt (index : Nat) (p : Int) (fs : List WireFrame) : (framesAt index p fs).length = fs.length := by
  induction fs generalizing p with
  | nil => rfl
  | cons f fs ih => simp [framesAt, ih]

variable {m : Mem} {index fuel : Nat} {p : Int} {f : WireFrame} {fs : List WireFrame} {r : List UInt8} {d : PackPerData}

/-- A frame with bytes behind it is found. -/
theorem otherFrames_cons (index fuel : Nat) (hlies : Lies m p (f.bytes ++ r)) (hr : f.data = [] → r ≠ []) :
    otherFrames m index (fuel + 1) p (f.length + r.length) =
      (⟨f.data.length, 0, index, p⟩ :: (otherFrames m index fuel (p + f.length) r.length).1,
        (otherFrames m index fuel (p + f.length) r.length).2) := by
  have hhead : MsgHead.load m p = f.head := WireFrame.load_of_lies (lies_append.1 hlies).1
  have hbig : f.length + r.length > 24 := by
    rw [WireFrame.length]
    by_cases hdata : f.data = []
    · have := List.length_pos_iff.2 (hr hdata)
      omega
    · have := List.length_pos_iff.2 hdata
      omega
  have hfits : f.length + r.length - 24 ≥ f.data.length := by
    rw [WireFrame.length]
    omega
  have hrest : f.length + r.length - 24 - f.data.length = r.length := by
    rw [WireFrame.length]
    omega
  simp only [otherFrames, if_pos hbig, hhead, f.dataLen, if_pos hfits, hrest]
  rfl

/-- A part of a frame, with its end still to come. -/
def Begins (r : List UInt8) : Prop := ∃ next : WireFrame, r <+: next.bytes ∧ r ≠ next.bytes

/-- Bytes in which no frame is found are left where they are. -/
theorem otherFrames_part (hlies : Lies m p r) (hr : r.length ≤ 24 ∨ Begins r) :
    otherFrames m index fuel p r.length = ([], p, r.length) := by
  cases fuel with
  | zero => rfl
  | succ fuel =>
    rw [otherFrames]
    by_cases hbig : r.length > 24
    · obtain ⟨next, ⟨rest, hrest⟩, hne⟩ := hr.resolve_left (Nat.not_le.2 hbig)
      have hpos : 0 < rest.length := by
        refine List.length_pos_iff.2 fun hnil => hne ?_
        rw [← hrest, hnil, List.append_nil]
      have hlt : r.length < 24 + next.data.length := by
        rw [← WireFrame.length, ← WireFrame.length_bytes, ← hrest, List.length_append]
        omega
      have htake : r.take 24 = next.bytes.take 24 := by rw [← hrest, List.take_append_of_le_length hbig.le]
      have hhead : MsgHead.load m p = next.head := WireFrame.load (htake ▸ hlies.take 24)
      simp only [if_pos hbig, hhead, next.dataLen]
      rw [if_neg (by omega)]
    · rw [if_neg hbig]

/-- All frames are found, unless the last one has no data and nothing is behind it. -/
theorem otherFrames_eq_whole (index : Nat) (hlies : Lies m p (wireBytes fs ++ r)) (hr : r.length ≤ 24 ∨ Begins r)
    (hlast : r = [] → ∀ f ∈ fs.getLast?, f.data ≠ []) (hfuel : (wireBytes fs).length + r.length ≤ fuel) :
    otherFrames m index fuel p ((wireBytes fs).length + r.length) =
      (framesAt index p fs, p + (wireBytes fs).length, r.length) := by
  induction fs generalizing fuel p with
  | nil => simpa [wireBytes, framesAt] using otherFrames_part hlies hr
  | cons f fs ih =>
    rw [length_wireBytes_cons, Nat.add_assoc] at hfuel ⊢
    rw [wireBytes_cons, List.append_assoc] at hlies
    have hrest := (lies_append.1 hlies).2
    rw [WireFrame.length_bytes] at hrest
    have hge := f.le_length
    obtain ⟨fuel, rfl⟩ : ∃ n, fuel = n + 1 := ⟨fuel - 1, by omega⟩
    have hbehind : f.data = [] → wireBytes fs ++ r ≠ [] := by
      intro hdata hnil
      obtain ⟨hfs, hnone⟩ := List.append_eq_nil_iff.1 hnil
      cases fs with
      | nil => exact hlast hnone f rfl hdata
      | cons f' fs =>
        have := f'.le_length
        have hlen := congrArg List.length hfs
        rw [length_wireBytes_cons, List.length_nil] at hlen
        omega
    have hlast' : r = [] → ∀ f ∈ fs.getLast?, f.data ≠ [] := by
      intro hnone f' hf'
      refine hlast hnone f' ?_
      cases fs with
      | nil => cases hf'
      | cons f'' fs => rwa [List.getLast?_cons_cons]
    have hstep := otherFrames_cons index fuel hlies hbehind
    rw [List.length_append] at hstep
    rw [hstep, ih hrest hlast' (by omega), framesAt]
    simp only [Prod.mk.injEq, true_and, and_true]
    push_cast
    ring

/-- Where the bytes behind the first frame of the buffer lie. -/
def extendAddr (d : PackPerData) (m : Mem) : Int := d.m_frame.m_buf + ((MsgHead.load m d.m_frame.m_buf).nFrameLen.toNat : Int)

/-- `GetOtherFrameCount` finds the frames, and the bytes `r` are left over. -/
def Splits (d : PackPerData) (m : Mem) (fs : List WireFrame) (r : List UInt8) : Prop :=
  d.getOtherFrameCount m = ({ d with m_nExtendLen := r.length, m_pExtendStart := some (d.extendAddr m + (wireBytes fs).length) },
    framesAt d.m_index (d.extendAddr m) fs)

/-- The frames behind the first one are all found, and the part of a frame behind them is left over, exactly
when the last of them is not a head at the very end. -/
theorem getOtherFrameCount_iff (d : PackPerData) (hr : Begins r) (hlen : d.m_nExtendLen = (wireBytes fs ++ r).length)
    (hlies : Lies m (d.extendAddr m) (wireBytes fs ++ r)) : d.Splits m fs r ↔ (r = [] → ∀ f ∈ fs.getLast?, f.data ≠ []) := by
  rw [List.length_append] at hlen
  refine ⟨?_, ?_⟩
  · -- the 24 bytes of the last frame are left over
    rintro hsplits rfl f hf hdata
    obtain ⟨fs₀, rfl⟩ : ∃ fs₀, fs = fs₀ ++ [f] := by
      rcases List.eq_nil_or_concat fs with rfl | ⟨fs₀, f', rfl⟩
      · cases hf
      · rw [List.concat_eq_append, List.getLast?_concat] at hf
        cases hf
        exact ⟨fs₀, List.concat_eq_append⟩
    have hbytes : wireBytes (fs₀ ++ [f]) = wireBytes fs₀ ++ f.bytes := by simp [wireBytes]
    have hshort : f.bytes.length = 24 := by rw [WireFrame.length_bytes, WireFrame.length, hdata, List.length_nil]
    rw [hbytes, List.append_nil] at hlies
    rw [hbytes, List.length_nil, Nat.add_zero, List.length_append] at hlen
    have hfound := otherFrames_eq_whole d.m_index hlies (.inl hshort.le)
      (fun hnil => absurd hshort (by rw [hnil]; decide)) (Nat.le_refl _)
    rw [← hlen] at hfound
    have hcount := congrArg (fun x => x.2.length) hsplits
    simp only [getOtherFrameCount, extendAddr] at hcount hfound
    rw [hfound] at hcount
    simp at hcount
  · intro hlast
    have hall := otherFrames_eq_whole d.m_index hlies (.inr hr) hlast (Nat.le_refl _)
    rw [← hlen] at hall
    rw [Splits, getOtherFrameCount]
    simp only [extendAddr] at hall ⊢
    rw [hall]

instance : Decidable (PackPerData.Splits d m fs r) := inferInstanceAs (Decidable (_ = _))

instance : Decidable (Lies m p r) := inferInstanceAs (Decidable (_ = _))

/-- A buffer at 4096 with the frames in it and the bytes `r` behind them, when the first frame is complete. -/
def filled (first : WireFrame) (fs : List WireFrame) (r : List UInt8) : PackPerData × Mem :=
  ({ PackPerData.new 0 4096 4096 with m_nExtendLen := (wireBytes fs ++ r).length },
    write (fun _ => 0) 4096 (first.bytes ++ wireBytes fs ++ r))

/-- Three frames, one of them without data. -/
def threeFrames : List WireFrame := [.zeros 5 (by decide), .zeros 0 (by decide), .zeros 3 (by decide)]

/-- The first ten bytes of a frame are behind them. -/
theorem getOtherFrameCount_three :
    (filled (.zeros 1 (by decide)) threeFrames ((WireFrame.zeros 2 (by decide)).bytes.take 10)).1.Splits
      (filled (.zeros 1 (by decide)) threeFrames ((WireFrame.zeros 2 (by decide)).bytes.take 10)).2 threeFrames
      ((WireFrame.zeros 2 (by decide)).bytes.take 10) :=
  (getOtherFrameCount_iff _ ⟨.zeros 2 (by decide), List.take_prefix .., by decide +kernel⟩ rfl (by decide +kernel)).2 fun hnil =>
    absurd hnil (by decide +kernel)

/-- A frame without data. -/
def headOnly : List WireFrame := [.zeros 0 (by decide)]

/-- Behind the first frame of a buffer it is not found. -/
theorem not_splits_head : Begins [] ∧
    (filled (.zeros 1 (by decide)) headOnly []).1.m_nExtendLen = (wireBytes headOnly ++ []).length ∧
    Lies (filled (.zeros 1 (by decide)) headOnly []).2
      ((filled (.zeros 1 (by decide)) headOnly []).1.extendAddr (filled (.zeros 1 (by decide)) headOnly []).2)
      (wireBytes headOnly ++ []) ∧
    ¬(filled (.zeros 1 (by decide)) headOnly []).1.Splits (filled (.zeros 1 (by decide)) headOnly []).2 headOnly [] :=
  ⟨⟨.zeros 0 (by decide), List.nil_prefix, by decide⟩, rfl, by decide +kernel, by decide +kernel⟩

end PackPerData

/-! ## `RecvData` behind a part of a frame -/

namespace PackPerData

/-- The first `k` bytes of the frame are the extend data of the buffer. -/
structure Extends (m : Mem) (prev : PackPerData) (f : WireFrame) (k : Nat) : Prop where
  len : prev.m_nExtendLen = k
  above : prev.m_frame.m_buf ≤ prev.m_pExtendStart.getD prev.m_frame.m_buf
  below : prev.m_pExtendStart.getD prev.m_frame.m_buf + k ≤ prev.m_frame.m_buf + PERIOPOSTSIZE
  lies : Lies m (prev.m_pExtendStart.getD prev.m_frame.m_buf) (f.bytes.take k)

variable {m : Mem} {prev d : PackPerData} {f : WireFrame} {fs : List WireFrame} {own : List UInt8} {k n copied len : Nat}

/-- The part of the frame is moved to the start of its buffer. -/
theorem Extends.moved (h : Extends m prev f k) (hpos : 0 < k) (hk : k < f.length) :
    prev.moveExtendData m = ({ prev with m_pExtendStart := none }, write m prev.m_frame.m_buf (f.bytes.take k)) := by
  have hlen : (f.bytes.take k).length = k := List.length_take_of_le (by rw [WireFrame.length_bytes]; omega)
  have hlies := h.lies
  rw [moveExtendData]
  cases hstart : prev.m_pExtendStart with
  | none =>
    rw [hstart, Option.getD_none] at hlies
    have hsame : ({ prev with m_pExtendStart := none } : PackPerData) = prev := by rw [← hstart]
    rw [write_of_lies hlies, hsame]
  | some pArr =>
    rw [hstart, Option.getD_some, Lies, hlen] at hlies
    simp only [h.len, if_pos hpos, moveBytes, hlies]

theorem joined_complete (prev : PackPerData) (copied len : Nat) (hload : MsgHead.load m prev.m_frame.m_buf = f.head) (hf : f.Checked)
    (hlen : (prev.m_nExtendLen + copied) % 65536 = f.length) :
    prev.joined m copied len = .ok ⟨{ prev with m_isFinish := true, m_nExtendLen := 0 }, m, len, true⟩ := by
  simp only [joined, hload, hlen, f.nFrameLen, if_true, hf.check]
  rfl

theorem joined_part (len : Nat) (hlen : (prev.m_nExtendLen + copied) % 65536 = n) (hn : (MsgHead.load m prev.m_frame.m_buf).nFrameLen.toNat ≠ n) :
    prev.joined m copied len = .ok ⟨{ prev with m_nExtendLen := n }, m, len, false⟩ := by
  simp only [joined, hlen, if_neg hn.symm]

/-- What is left of the new bytes is not changed, and the frame is complete when its length says so. -/
theorem joined_ok {j : JoinedPrev} (hlen : (prev.m_nExtendLen + copied) % 65536 = n) (h : prev.joined m copied len = .ok j) :
    j.len = len ∧ (j.nFlag = true ↔ (MsgHead.load m prev.m_frame.m_buf).nFrameLen.toNat = n) := by
  rw [joined] at h
  simp only [hlen] at h
  split_ifs at h with hn
  · obtain ⟨-, -, h⟩ := bind_eq_ok.1 h
    cases h
    exact ⟨rfl, iff_of_true rfl hn.symm⟩
  · cases h
    exact ⟨rfl, iff_of_false (by simp) (Ne.symm hn)⟩

/-- Nothing is thrown for the bytes of well-formed frames. -/
theorem recvOwn_ok (pPrev : Option Nat) (hlies : Lies m d.m_frame.m_buf own) (hown : own <+: wireBytes fs)
    (hlen : own.length ≤ PERIOPOSTSIZE) (hext : d.m_nExtendLen ≤ PERIOPOSTSIZE) :
    ∃ r, d.recvOwn m d.m_frame.m_buf own.length pPrev = .ok r := by
  simp only [recvOwn, PERIOPOSTSIZE] at hlen hext ⊢
  by_cases hzero : own.length = 0
  · rw [if_pos hzero]
    exact ⟨_, rfl⟩
  by_cases hbig : d.m_frame.m_buf + (own.length : Int) - d.m_frame.m_buf > 24
  · -- the head of the next frame is there
    have hhead : (MsgHead.load m d.m_frame.m_buf).nFrameLen.toNat ≠ 0 := by
      obtain ⟨rest, hrest⟩ := hown
      cases fs with
      | nil =>
        rw [wireBytes, List.flatMap_nil, List.append_eq_nil_iff] at hrest
        exact absurd (by rw [hrest.1]; rfl) hzero
      | cons g fs =>
        have hge := g.le_length
        have htake : own.take 24 = g.bytes.take 24 := by
          have hcut := congrArg (List.take 24) hrest
          rwa [List.take_append_of_le_length (by omega), wireBytes_cons,
            List.take_append_of_le_length (by rw [WireFrame.length_bytes]; omega)] at hcut
        rw [WireFrame.load (htake ▸ hlies.take 24), g.nFrameLen]
        omega
    rw [if_neg hzero, if_pos hbig, if_neg hhead]
    split_ifs with hlong hrest hmore hover hover
    · exact ⟨_, rfl⟩
    · omega
    · exact ⟨_, rfl⟩
    · omega
    · exact ⟨_, rfl⟩
    · exact ⟨_, rfl⟩
  · rw [if_neg hzero, if_neg hbig]
    exact ⟨_, rfl⟩

end PackPerData

namespace RecvSession

/-- The buffer `j` was left with the first `k` bytes of the frame `f`, and the next `L` bytes of the stream, in
which the frames `fs` follow, have come in the buffer `cur`, which `PostRecv` has posted. -/
structure LeftBehind (s : RecvSession) (cur j : Nat) (d prev : PackPerData) (f : WireFrame) (fs : List WireFrame) (k L : Nat) : Prop where
  new : s.m_RecvBuf[cur]? = some d
  old : s.m_RecvBuf[j]? = some prev
  ne : cur ≠ j
  apart : prev.m_frame.m_buf + PERIOPOSTSIZE ≤ d.m_frame.m_buf ∨ d.m_frame.m_buf + PERIOPOSTSIZE ≤ prev.m_frame.m_buf
  posted : d.m_nExtendLen = 0
  checked : f.Checked
  small : f.length ≤ TRANSFRAME
  begun : 0 < k
  part : k < f.length
  left : prev.Extends s.mem f k
  pos : 1 ≤ L
  fits : L ≤ PERIOPOSTSIZE
  enough : k + L ≤ (f.bytes ++ wireBytes fs).length
  lies : Lies s.mem d.m_frame.m_buf (((f.bytes ++ wireBytes fs).drop k).take L)

/-- What `RecvData` is to make of it: the frame goes on at the start of its buffer, the bytes behind it are at
the start of the new one, and `nFlag` says whether the frame is complete. -/
def Completes (s : RecvSession) (cur j : Nat) (d prev : PackPerData) (f : WireFrame) (fs : List WireFrame) (k L : Nat) : Prop :=
  ∃ m' prev' s' ret, s.joinData cur ⟨cur, L, d.m_frame.m_buf, some j⟩ =
      .ok (m', s.m_RecvBuf.set j prev', k + L - f.length, decide (f.length ≤ k + L)) ∧
    s.recvData cur ⟨cur, L, d.m_frame.m_buf, some j⟩ = .ok (s', ret, decide (f.length ≤ k + L)) ∧
    s'.mem = m' ∧ s'.m_RecvBuf[j]? = some prev' ∧
    Lies m' prev.m_frame.m_buf (f.bytes.take (k + L)) ∧
    Lies m' d.m_frame.m_buf ((wireBytes fs).take (k + L - f.length)) ∧
    (k + L < f.length → prev'.m_nExtendLen = k + L)

variable {s : RecvSession} {cur j k L : Nat} {d prev : PackPerData} {f : WireFrame} {fs : List WireFrame}

/-- The part of the frame is moved to the start of its buffer before the new bytes are copied behind it. -/
theorem LeftBehind.joins {m' : Mem} {copied len : Nat} (h : LeftBehind s cur j d prev f fs k L)
    (hcopy : PackPerData.copyToPrev (write s.mem prev.m_frame.m_buf (f.bytes.take k)) prev.m_frame.m_buf d.m_frame.m_buf k L =
      .ok (m', copied, len)) :
    s.joinData cur ⟨cur, L, d.m_frame.m_buf, some j⟩ = (({ prev with m_pExtendStart := none } : PackPerData).joined m' copied len).map
      fun r => (r.mem, s.m_RecvBuf.set j r.prev, r.len, r.nFlag) := by
  have hlen := h.left.len
  simp only [joinData, buf, h.new, h.old, bind, Except.bind, PackPerData.joinPrev, h.left.moved h.begun h.part, hlen, hcopy,
    if_pos (show k > 0 from h.begun)]
  rw [← hlen]
  cases PackPerData.joined { prev with m_pExtendStart := none } m' copied len <;> rfl

/-- The bytes that are left are those of the new buffer. -/
theorem LeftBehind.completes (m' : Mem) (prev' : PackPerData) (h : LeftBehind s cur j d prev f fs k L)
    (hjoin : s.joinData cur ⟨cur, L, d.m_frame.m_buf, some j⟩ =
      .ok (m', s.m_RecvBuf.set j prev', k + L - f.length, decide (f.length ≤ k + L)))
    (hprev : Lies m' prev.m_frame.m_buf (f.bytes.take (k + L)))
    (hown : Lies m' d.m_frame.m_buf ((wireBytes fs).take (k + L - f.length)))
    (hpart : k + L < f.length → prev'.m_nExtendLen = k + L) : Completes s cur j d prev f fs k L := by
  have henough := h.enough
  have hfits := h.fits
  have hbegun := h.part
  rw [List.length_append, WireFrame.length_bytes] at henough
  have hlen : ((wireBytes fs).take (k + L - f.length)).length = k + L - f.length := List.length_take_of_le (by omega)
  obtain ⟨⟨d', req, ret⟩, hrecv⟩ := PackPerData.recvOwn_ok (some j) hown (List.take_prefix ..) (by rw [hlen]; omega)
    (by rw [h.posted]; exact Nat.zero_le _)
  rw [hlen] at hrecv
  have hd : (s.m_RecvBuf.set j prev')[cur]? = some d := by rw [List.getElem?_set_ne h.ne.symm, h.new]
  have hj : j < s.m_RecvBuf.length := (List.getElem?_eq_some_iff.1 h.old).1
  refine ⟨m', prev', store { s with mem := m', m_RecvBuf := s.m_RecvBuf.set j prev' } cur d' req, ret, hjoin, ?_, rfl, ?_,
    hprev, hown, hpart⟩
  · simp only [recvData, hjoin, bind, Except.bind, buf, hd, hrecv]
  · simp only [store]
    rw [List.getElem?_set_ne h.ne, List.getElem?_set_self hj]

/-- The previous buffer, with the bytes of the frame that have come at its start. -/
def shownLen (s : RecvSession) (prev : PackPerData) (f : WireFrame) (n : Nat) : Nat :=
  (MsgHead.load (write s.mem prev.m_frame.m_buf (f.bytes.take n)) prev.m_frame.m_buf).nFrameLen.toNat

/-- What has come in the new buffer, when the part of the frame has been moved: the rest of the frame, and what follows. -/
theorem LeftBehind.moved (h : LeftBehind s cur j d prev f fs k L) :
    Lies (write s.mem prev.m_frame.m_buf (f.bytes.take k)) d.m_frame.m_buf
      ((f.bytes.drop k).take L ++ (wireBytes fs).take (L - (f.length - k))) := by
  have hpart := h.part
  have hfits := h.fits
  have hsmall := h.small
  have hapart := h.apart
  have henough := h.enough
  simp only [PERIOPOSTSIZE, TRANSFRAME] at hfits hsmall hapart
  rw [List.length_append, WireFrame.length_bytes] at henough
  have hkept : (f.bytes.take k).length = k := List.length_take_of_le (by rw [WireFrame.length_bytes]; omega)
  have hrest : (f.bytes.drop k).length = f.length - k := by rw [List.length_drop, WireFrame.length_bytes]
  have hdrop : (f.bytes ++ wireBytes fs).drop k = f.bytes.drop k ++ wireBytes fs :=
    List.drop_append_of_le_length (by rw [WireFrame.length_bytes]; omega)
  have hlies := h.lies
  rw [hdrop, List.take_append, hrest] at hlies
  refine hlies.write_other ?_
  rw [List.length_append, List.length_take, List.length_take, hrest, hkept]
  omega

/-- The frame goes on behind the completion: it is taken for complete when its head, not received whole, shows the length that was
received. -/
theorem LeftBehind.completes_part_iff (h : LeftBehind s cur j d prev f fs k L) (hshort : k + L < f.length) :
    Completes s cur j d prev f fs k L ↔ s.shownLen prev f (k + L) ≠ k + L := by
  have hfits := h.fits
  have hsmall := h.small
  have hapart := h.apart
  simp only [PERIOPOSTSIZE, TRANSFRAME] at hfits hsmall hapart
  have hkept : (f.bytes.take k).length = k := List.length_take_of_le (by rw [WireFrame.length_bytes]; omega)
  have hnew := h.moved
  have htake : (wireBytes fs).take (L - (f.length - k)) = [] := by
    rw [show L - (f.length - k) = 0 by omega, List.take_zero]
  rw [htake, List.append_nil] at hnew
  have hcopy := PackPerData.copyToPrev_part h.checked rfl hshort (lies_write ..) hnew (by omega)
  have hmem : write (write s.mem prev.m_frame.m_buf (f.bytes.take k)) (prev.m_frame.m_buf + k) ((f.bytes.drop k).take L) =
      write s.mem prev.m_frame.m_buf (f.bytes.take (k + L)) := by
    rw [List.take_add]
    exact write_append_of (by rw [hkept])
  rw [hmem] at hcopy
  have hsum : (({ prev with m_pExtendStart := none } : PackPerData).m_nExtendLen + L) % 65536 = k + L := by
    dsimp only
    rw [h.left.len]
    omega
  have hjoin := h.joins hcopy
  by_cases hshown : s.shownLen prev f (k + L) = k + L
  · refine iff_of_false (fun hc => ?_) fun hc => hc hshown
    obtain ⟨m', prev', s', ret, hdone, -⟩ := hc
    rw [hjoin] at hdone
    cases hr : PackPerData.joined { prev with m_pExtendStart := none } (write s.mem prev.m_frame.m_buf (f.bytes.take (k + L))) L 0 with
    | error e =>
      rw [hr] at hdone
      cases hdone
    | ok r =>
      have hflag := (PackPerData.joined_ok hsum hr).2.2 hshown
      rw [hr] at hdone
      have heq := congrArg (fun x => x.2.2.2) (Except.ok.inj hdone)
      dsimp only at heq
      rw [hflag, decide_eq_false (Nat.not_le.2 hshort)] at heq
      cases heq
  · have hone := PackPerData.joined_part (m := write s.mem prev.m_frame.m_buf (f.bytes.take (k + L))) 0 hsum hshown
    refine iff_of_true (h.completes _ { prev with m_pExtendStart := none, m_nExtendLen := k + L } ?_ (lies_write s.mem ..) ?_ fun _ => rfl)
      hshown
    · rw [hjoin, hone, decide_eq_false (Nat.not_le.2 hshort), Nat.sub_eq_zero_of_le hshort.le]
      rfl
    · rw [Nat.sub_eq_zero_of_le hshort.le, List.take_zero]
      rfl

/-- The completion has the rest of the frame, and is longer than a head when it goes on behind it. -/
theorem LeftBehind.completes_whole (h : LeftBehind s cur j d prev f fs k L) (hall : f.length ≤ k + L)
    (hhead : L ≤ 24 → k + L ≤ f.length) : Completes s cur j d prev f fs k L := by
  have hpart := h.part
  have hfits := h.fits
  have hsmall := h.small
  have hapart := h.apart
  have henough := h.enough
  simp only [PERIOPOSTSIZE, TRANSFRAME] at hfits hsmall hapart
  rw [List.length_append, WireFrame.length_bytes] at henough
  have hnew := h.moved
  have htake : (f.bytes.drop k).take L = f.bytes.drop k :=
    List.take_of_length_le (by rw [List.length_drop, WireFrame.length_bytes]; omega)
  have hown : ((wireBytes fs).take (L - (f.length - k))).length = k + L - f.length := by
    rw [List.length_take]
    omega
  rw [htake] at hnew
  obtain ⟨m', hcopy, hfull, hleft, -⟩ := PackPerData.copyToPrev_ok h.checked hpart (lies_write ..) hnew (by
    rw [← List.length_eq_zero_iff, hown]
    omega) (by rw [hown]; omega)
  rw [hown, show f.length - k + (k + L - f.length) = L by omega] at hcopy
  have hone := PackPerData.joined_complete { prev with m_pExtendStart := none } (f.length - k)
    (k + L - f.length) (WireFrame.load_of_lies hfull) h.checked (by
      dsimp only
      rw [h.left.len]
      omega)
  refine h.completes m' { prev with m_pExtendStart := none, m_isFinish := true, m_nExtendLen := 0 } ?_ ?_ ?_
    fun hlt => absurd hall (Nat.not_le.2 hlt)
  · rw [h.joins hcopy, hone, decide_eq_true hall]
    rfl
  · rwa [List.take_of_length_le (by rw [WireFrame.length_bytes]; exact hall)]
  · rwa [show L - (f.length - k) = k + L - f.length by omega] at hleft

/-- The bytes behind the frame are copied with it by a completion that is no longer than a head. -/
theorem LeftBehind.not_completes (h : LeftBehind s cur j d prev f fs k L) (hfew : L ≤ 24) (hlong : f.length < k + L) :
    ¬Completes s cur j d prev f fs k L := by
  intro ⟨m', prev', s', ret, hdone, _⟩
  rw [h.joins (PackPerData.copyToPrev_head hfew)] at hdone
  cases hr : PackPerData.joined { prev with m_pExtendStart := none }
    (write (write s.mem prev.m_frame.m_buf (f.bytes.take k)) (prev.m_frame.m_buf + k)
      (read (write s.mem prev.m_frame.m_buf (f.bytes.take k)) d.m_frame.m_buf L)) L 0 with
  | error e =>
    rw [hr] at hdone
    cases hdone
  | ok r =>
    have hnone := (PackPerData.joined_ok rfl hr).1
    rw [hr] at hdone
    have heq := congrArg (fun x => x.2.2.1) (Except.ok.inj hdone)
    dsimp only at heq
    omega

/-- A frame that was left over is completed as it should be, unless the completion is no longer than a head and
goes on behind the frame, or the head, not received whole, shows the length that was received. -/
theorem recvData_completes_iff (h : LeftBehind s cur j d prev f fs k L) :
    Completes s cur j d prev f fs k L ↔
      (L ≤ 24 → k + L ≤ f.length) ∧ (k + L < f.length → s.shownLen prev f (k + L) ≠ k + L) := by
  rcases Nat.lt_or_ge (k + L) f.length with hshort | hall
  · rw [h.completes_part_iff hshort, and_iff_right fun _ => hshort.le, forall_prop_of_true hshort]
  · rw [and_iff_left fun hlt => absurd hall (Nat.not_le.2 hlt)]
    refine ⟨?_, ?_⟩
    · intro hc hfew
      by_contra hlong
      exact h.not_completes hfew (Nat.lt_of_not_le hlong) hc
    · exact h.completes_whole hall

/-- The buffer at 4096 has the first `k` bytes of the frame, and the next `L` bytes are in the one at 8192. -/
def leftBehind (f : WireFrame) (fs : List WireFrame) (k L : Nat) : RecvSession :=
  { init 0 (write (write (fun _ => 0) 4096 (f.bytes.take k)) 8192 (((f.bytes ++ wireBytes fs).drop k).take L)) 4096 with
    m_RecvBuf := [{ PackPerData.new 0 4096 4096 with m_nExtendLen := k, m_pExtendStart := some 4096 }, .new 1 8192 4096] }

/-- A frame of 124 bytes, and the frame behind it. -/
theorem recvData_completes_long : Completes (leftBehind (.zeros 100 (by decide)) [.zeros 300 (by decide)] 30 200) 1 0
    (.new 1 8192 4096) { PackPerData.new 0 4096 4096 with m_nExtendLen := 30, m_pExtendStart := some 4096 }
    (.zeros 100 (by decide)) [.zeros 300 (by decide)] 30 200 :=
  (recvData_completes_iff ⟨rfl, rfl, by decide, by decide, rfl, ⟨by decide, by decide, by decide +kernel⟩, by decide, by decide,
    by decide, ⟨rfl, by decide, by decide, by decide +kernel⟩, by decide, by decide, by decide +kernel, by decide +kernel⟩).2
    ⟨by decide, by decide⟩

/-- Twenty bytes that end a frame of 25 bytes and begin the next one. -/
theorem not_completes_short : LeftBehind (leftBehind (.zeros 1 (by decide)) [.zeros 0 (by decide)] 10 20) 1 0
      (.new 1 8192 4096) { PackPerData.new 0 4096 4096 with m_nExtendLen := 10, m_pExtendStart := some 4096 }
      (.zeros 1 (by decide)) [.zeros 0 (by decide)] 10 20 ∧
    ¬Completes (leftBehind (.zeros 1 (by decide)) [.zeros 0 (by decide)] 10 20) 1 0
      (.new 1 8192 4096) { PackPerData.new 0 4096 4096 with m_nExtendLen := 10, m_pExtendStart := some 4096 }
      (.zeros 1 (by decide)) [.zeros 0 (by decide)] 10 20 := by
  refine ⟨⟨rfl, rfl, by decide, by decide, rfl, ⟨by decide, by decide, by decide +kernel⟩, by decide, by decide, by decide,
    ⟨rfl, by decide, by decide, by decide +kernel⟩, by decide, by decide, by decide +kernel, by decide +kernel⟩, fun hc => ?_⟩
  obtain ⟨m', prev', s', ret, hjoin, -⟩ := hc
  have hflag : ((leftBehind (.zeros 1 (by decide)) [.zeros 0 (by decide)] 10 20).joinData 1 ⟨1, 20, 8192, some 0⟩).toOption.map
      (fun x => x.2.2.2) = some false := by decide +kernel
  have heq := congrArg (fun x => x.toOption.map fun x => x.2.2.2) hjoin
  have htrue := hflag.symm.trans heq
  cases htrue

end RecvSession
