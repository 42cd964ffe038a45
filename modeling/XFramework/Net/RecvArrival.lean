/-
What one completion brings (Net/SocketSession.cpp, Net/PackPerData.cpp).

A completion is described by lengths alone: which frame it completes that was
left over, which frames are whole behind it, and what is left over again
(`Arrival`). `Brought` says that a pass of `ParseData` takes exactly these
frames from it (`taken_arrival`).
-/
import XFramework.Net.RecvStream

open Bytes Fallible

/-! ## The buffers -/

/-- The buffer at a place of a session whose buffers begin at `base`. -/
structure PackPerData.At (base : Int) (i : Nat) (d : PackPerData) : Prop where
  index : d.m_index = i
  frame : d.m_frame.m_index = (i : Int)
  nPost : d.m_nPost = 0
  buf : d.m_frame.m_buf = base + 4096 * (i : Int)
  len : d.m_frame.len = 4096

structure Bufs (base : Int) (bufs : List PackPerData) : Prop where
  length : bufs.length = 4
  place : ∀ (i : Nat) (d : PackPerData), bufs[i]? = some d → d.At base i

variable {base : Int} {bufs bufs₁ : List PackPerData} {i k : Nat} {d d' : PackPerData}

theorem Bufs.lt (hb : Bufs base bufs) (hd : bufs[i]? = some d) : i < 4 := by
  have := (List.getElem?_eq_some_iff.1 hd).1
  rwa [hb.length] at this

theorem Bufs.get (hb : Bufs base bufs) (hi : i < 4) : ∃ d, bufs[i]? = some d :=
  ⟨_, List.getElem?_eq_getElem (by rw [hb.length]; exact hi)⟩

theorem Bufs.set (hb : Bufs base bufs) (hd : d.At base i) : Bufs base (bufs.set i d) := by
  refine ⟨by rw [List.length_set, hb.length], fun i' d' hd' => ?_⟩
  rw [List.getElem?_set] at hd'
  split_ifs at hd' with heq hlt
  · cases hd'
    exact heq ▸ hd
  · exact hb.place i' d' hd'

theorem getElem?_set_self_of (hd : bufs[i]? = some d) : (bufs.set i d')[i]? = some d' := by
  rw [List.getElem?_set_self (List.getElem?_eq_some_iff.1 hd).1]

/-- The buffers have their numbers already. -/
theorem Bufs.resetIndex (hb : Bufs base bufs) : bufs.mapIdx (fun i d => d.resetIndex i) = bufs := by
  refine List.ext_getElem? fun i => ?_
  rw [List.getElem?_mapIdx]
  cases hd : bufs[i]? with
  | none => rfl
  | some d =>
    have hlt := hb.lt hd
    have hat := hb.place i d hd
    simp only [Option.map_some, PackPerData.resetIndex, Nat.mod_eq_of_lt (by omega : i < 16), ← hat.frame]
    simp only [← hat.index]

/-! ## Arrivals -/

/-- What a completion brings: the frame that was left over, the frames that are whole in the buffer, how
many bytes are in the buffer and how many of them are left over behind the frames. -/
structure Arrival where
  joined : List Framed
  own : List Framed
  total : Nat
  left : Nat

namespace Arrival

/-- The frames of `todo` that are whole in the `T` bytes of a buffer. -/
def ofBuffer (joined : List Framed) (T : Nat) : List Framed → Arrival
  | [] => ⟨joined, [], T, 0⟩
  | f :: fs =>
    if T < f.length then ⟨joined, [], T, 0⟩
    else
      let r := PackPerData.whole (T - f.length) fs
      ⟨joined, f :: r.1, T, r.2⟩

/-- `e` bytes of the first frame were left over in the buffer before, and `t` bytes are in this one. -/
def of (e t : Nat) (todo : List Framed) : Arrival :=
  if e = 0 then ofBuffer [] t todo
  else
    match todo with
    | [] => ⟨[], [], 0, 0⟩
    | f :: rest => ofBuffer [f] (e + t - f.length) rest

theorem of_zero (t : Nat) (todo : List Framed) : of 0 t todo = ofBuffer [] t todo := by
  cases todo <;> rfl

theorem of_pos {e : Nat} (t : Nat) (f : Framed) (rest : List Framed) (he : e ≠ 0) :
    of e t (f :: rest) = ofBuffer [f] (e + t - f.length) rest := if_neg he

theorem total_ofBuffer (joined : List Framed) (T : Nat) (todo : List Framed) : (ofBuffer joined T todo).total = T := by
  cases todo with
  | nil => rfl
  | cons f fs =>
    rw [ofBuffer]
    split_ifs <;> rfl

theorem joined_ofBuffer (joined : List Framed) (T : Nat) (todo : List Framed) : (ofBuffer joined T todo).joined = joined := by
  cases todo with
  | nil => rfl
  | cons f fs =>
    rw [ofBuffer]
    split_ifs <;> rfl

/-- The frames as they are entered: `j` is the buffer before, `k` this one. -/
def ownFrames (base : Int) (k : Nat) : List Framed → List MsgFrame
  | [] => []
  | f :: fs =>
    ⟨f.length, 0, k, base + 4096 * (k : Int)⟩ :: PackPerData.placed k (base + 4096 * (k : Int) + f.length) fs

def frames (base : Int) (j k : Nat) (a : Arrival) : List MsgFrame :=
  (a.joined.map fun f => ⟨f.length, 0, j, base + 4096 * (j : Int)⟩) ++ ownFrames base k a.own

def msgs (a : Arrival) : List Message := (a.joined ++ a.own).map Framed.msg

/-- Nothing but a part of a frame is in the buffer. -/
def Partial (a : Arrival) : Prop := a.own = [] ∧ 0 < a.total

instance (a : Arrival) : Decidable a.Partial :=
  decidable_of_iff (a.own.isEmpty ∧ 0 < a.total) (and_congr_left fun _ => List.isEmpty_iff)

end Arrival

namespace RecvSession

variable {s : RecvSession} {io : TmpPerIO} {m₁ : Mem} {len : Nat} {nFlag : Bool} {req : Option PostReq} {ret : Int}
  {pre : List MsgFrame}

/-- A pass, when it is known what became of the buffer before and of this one. -/
theorem taken_of_join (hjoin : s.joinData k io = .ok (m₁, bufs₁, len, nFlag)) (hd : bufs₁[k]? = some d)
    (hown : d.recvOwn m₁ io.pBuf len io.pPrevIOData = .ok (d', req, ret))
    (hpre : if nFlag then ∃ j prev, d'.m_pPrevPerData = some j ∧ j ≠ k ∧ bufs₁[j]? = some prev ∧ prev.m_index = j ∧
      pre = [prev.getCurComplateFrame m₁] else pre = []) :
    s.taken k io = .ok (if ret ≥ 0 ∧ d'.m_isFinish then
        let r := (d'.setNoticeStatus false).getOtherFrameCount m₁
        ⟨m₁, bufs₁.set k r.1, s.posted ++ req.toList, pre ++ (r.1.getCurComplateFrame m₁ :: r.2), nFlag && decide (ret > 0)⟩
      else ⟨m₁, bufs₁.set k d', s.posted ++ req.toList, pre, nFlag && decide (ret > 0)⟩) := by
  have hget : (bufs₁.set k d')[k]? = some d' := getElem?_set_self_of hd
  have hrecv : s.recvData k io = .ok ({ s with mem := m₁, m_RecvBuf := bufs₁.set k d', posted := s.posted ++ req.toList },
      ret, nFlag) := by
    simp only [recvData, hjoin, bind, Except.bind, buf, hd, hown]
    rfl
  have hprev : prevFrame { s with mem := m₁, m_RecvBuf := bufs₁.set k d', posted := s.posted ++ req.toList } k nFlag =
      .ok pre := by
    cases nFlag with
    | false =>
      rw [if_neg Bool.false_ne_true] at hpre
      rw [prevFrame, if_neg Bool.false_ne_true, hpre]
    | true =>
      rw [if_pos rfl] at hpre
      obtain ⟨j, prev, hj, hne, hbuf, hindex, rfl⟩ := hpre
      have hbuf' : (bufs₁.set k d')[j]? = some prev := by rw [List.getElem?_set_ne hne.symm, hbuf]
      simp only [prevFrame, if_true, buf, hget, bind, Except.bind, hj, hbuf', hindex]
  rw [taken, hrecv]
  dsimp only [bind, Except.bind]
  rw [hprev]
  simp only [ownFrames, buf, hget, bind, Except.bind]
  split_ifs with hfull
  · simp only [store, List.set_set, Option.toList, List.append_nil]
  · simp only [List.append_nil]

end RecvSession

/-! ## The frames in memory -/

/-- The frame lies in buffer `i`. -/
structure MsgFrame.LiesIn (base : Int) (m : Mem) (i : Nat) (f : MsgFrame) : Prop where
  index : f.m_index = (i : Int)
  above : base + 4096 * (i : Int) ≤ f.m_buf
  below : f.m_buf + (24 + (MsgHead.load m f.m_buf).nDataLen.toNat : Nat) ≤ base + 4096 * (i : Int) + 4096

variable {m m' : Mem} {p : Int} {f : Framed} {fs todo : List Framed} {fr : MsgFrame}

theorem Framed.holds (hlies : Lies m p f.bytes) (hp : fr.m_buf = p) : Holds True m fr f.msg := by
  have hload := Framed.load_of_lies hlies
  have hd := f.describes
  refine ⟨?_, ?_, ?_, ?_, ?_, fun _ => ?_⟩
  · rw [frameKey, hp, hload, hd.ntimestamp]
    rfl
  · rw [totalFrames, hp, hload, hd.tFrames]
  · rw [hp, hload, hd.tSrcLen]
  · rw [hp, hload, hd.tDataLen]
  · rw [hp, hload, hd.nDataLen]
  · have hdata := (lies_append.1 hlies).2
    rw [MsgHead.length_bytes] at hdata
    rw [hp, hload, hd.nDataLen]
    exact hdata

/-- A frame takes as many bytes as it has. -/
theorem Framed.end_eq (hlies : Lies m p f.bytes) : p + (24 + (MsgHead.load m p).nDataLen.toNat : Nat) = p + f.length := by
  rw [Framed.load_of_lies hlies, f.describes.nDataLen, Framed.length]

theorem placed_holds {index : Nat} (hlies : Lies m p (streamBytes fs)) :
    List.Forall₂ (Holds True m) (PackPerData.placed index p fs) (fs.map Framed.msg) := by
  induction fs generalizing p with
  | nil => exact .nil
  | cons f fs ih =>
    rw [streamBytes_cons, lies_append, Framed.length_bytes] at hlies
    exact .cons (f.holds hlies.1 rfl) (ih hlies.2)

theorem placed_liesIn {index : Nat} (hlies : Lies m p (streamBytes fs)) (hp : base + 4096 * (index : Int) ≤ p)
    (hend : p + (streamBytes fs).length ≤ base + 4096 * (index : Int) + 4096) :
    ∀ fr ∈ PackPerData.placed index p fs, fr.LiesIn base m index := by
  induction fs generalizing p with
  | nil => exact fun _ h => nomatch h
  | cons f fs ih =>
    rw [streamBytes_cons, lies_append, Framed.length_bytes] at hlies
    rw [streamBytes_cons, List.length_append, Framed.length_bytes] at hend
    have hfirst := f.end_eq hlies.1
    intro fr hfr
    rw [PackPerData.placed, List.mem_cons] at hfr
    cases hfr with
    | inl heq =>
      subst heq
      refine ⟨rfl, hp, ?_⟩
      dsimp only
      omega
    | inr hfr => exact ih hlies.2 (by omega) (by push_cast at hend ⊢; omega) fr hfr

namespace Arrival

theorem holds_ownFrames (hlies : Lies m (base + 4096 * (k : Int)) (streamBytes fs)) :
    List.Forall₂ (Holds True m) (ownFrames base k fs) (fs.map Framed.msg) := by
  cases fs with
  | nil => exact .nil
  | cons f fs =>
    rw [streamBytes_cons, lies_append, Framed.length_bytes] at hlies
    exact .cons (f.holds hlies.1 rfl) (placed_holds hlies.2)

theorem liesIn_ownFrames (hlies : Lies m (base + 4096 * (k : Int)) (streamBytes fs)) (hend : (streamBytes fs).length ≤ 4096) :
    ∀ fr ∈ ownFrames base k fs, fr.LiesIn base m k := by
  cases fs with
  | nil => exact fun _ h => nomatch h
  | cons f fs =>
    rw [streamBytes_cons, lies_append, Framed.length_bytes] at hlies
    rw [streamBytes_cons, List.length_append, Framed.length_bytes] at hend
    have hfirst := f.end_eq hlies.1
    intro fr hfr
    rw [ownFrames, List.mem_cons] at hfr
    cases hfr with
    | inl heq =>
      subst heq
      refine ⟨rfl, le_rfl, ?_⟩
      dsimp only
      omega
    | inr hfr => exact placed_liesIn hlies.2 (by omega) (by omega) fr hfr

end Arrival

/-! ## What the buffers hold -/

/-- `t` bytes of the stream are at the start of buffer `k`. Before them, `e` bytes are left over in the
buffer `pExtend`. -/
structure Arrived (base : Int) (m : Mem) (bufs : List PackPerData) (k : Nat) (pExtend : Option Nat) (e t : Nat)
    (todo : List Framed) : Prop where
  buffers : Bufs base bufs
  lt : k < 4
  lt_ext : ∀ j ∈ pExtend, j < 4
  prev : ∀ d, bufs[k]? = some d → d.m_pPrevPerData = pExtend
  fits : t ≤ 4096
  enough : e + t ≤ (streamBytes todo).length
  lies : Lies m (base + 4096 * (k : Int)) (((streamBytes todo).drop e).take t)
  zero : ∀ (i : Nat) d, bufs[i]? = some d → e = 0 ∨ pExtend ≠ some i → d.m_nExtendLen = 0
  left : 0 < e → ∃ j d f rest p, pExtend = some j ∧ j ≠ k ∧ bufs[j]? = some d ∧ todo = f :: rest ∧
    PackPerData.LeftOver m d f e p ∧ p + e ≤ base + 4096 * (j : Int) + 4096

namespace Arrived

variable {s : RecvSession} {io : TmpPerIO} {pExtend : Option Nat} {e t q : Nat}

theorem zero_of (ha : Arrived base m bufs k pExtend 0 t todo) (hd : bufs[i]? = some d) : d.m_nExtendLen = 0 :=
  ha.zero i d hd (.inl rfl)

/-- No frame was left over: the bytes are those of the buffer. -/
theorem join_none (ha : Arrived base s.mem s.m_RecvBuf k pExtend 0 t todo) (hio : io.pPrevIOData = pExtend) :
    s.joinData k io = .ok (s.mem, s.m_RecvBuf, io.len, false) := by
  rw [RecvSession.joinData, hio]
  cases hext : pExtend with
  | none => rfl
  | some j =>
    obtain ⟨d, hd⟩ := ha.buffers.get ha.lt
    obtain ⟨prev, hprev⟩ := ha.buffers.get (ha.lt_ext j hext)
    have hzero : ¬prev.m_nExtendLen > 0 := by
      rw [ha.zero_of hprev]
      exact lt_irrefl 0
    simp only [RecvSession.buf, hd, hprev, bind, Except.bind, if_neg hzero]

/-- The frame that was left over is completed in its buffer, and the other bytes are those of this one. -/
theorem join_left (ha : Arrived base s.mem s.m_RecvBuf k pExtend e t (f :: fs)) (hpos : 0 < e) (hlt : e < f.length)
    (hle : f.length ≤ e + t) (hown : e + t - f.length = 0 ∨ 24 < e + t - f.length) (hio : io.pPrevIOData = pExtend)
    (hlen : io.len = t) : ∃ j m₁ prev, pExtend = some j ∧ j ≠ k ∧
      s.joinData k io = .ok (m₁, s.m_RecvBuf.set j prev, e + t - f.length, true) ∧ prev.At base j ∧
      Lies m₁ (base + 4096 * (j : Int)) f.bytes ∧ Arrived base m₁ (s.m_RecvBuf.set j prev) k pExtend 0 (e + t - f.length) fs ∧
      ∀ x, x < base + 4096 * (j : Int) ∨ base + 4096 * (j : Int) + f.length ≤ x →
        x < base + 4096 * (k : Int) ∨ base + 4096 * (k : Int) + 4096 ≤ x → m₁ x = s.mem x := by
  obtain ⟨j, prev, f', rest, p, hext, hne, hprev, htodo, hleft, -⟩ := ha.left hpos
  cases htodo
  have henough := ha.enough
  have hfits := ha.fits
  have hfl := f.length_le
  rw [streamBytes_cons, List.length_append, Framed.length_bytes] at henough
  obtain ⟨d, hd⟩ := ha.buffers.get ha.lt
  have hat := ha.buffers.place j prev hprev
  have hatk := ha.buffers.place k d hd
  have hprevk := ha.prev d hd
  have hzero := ha.zero
  obtain ⟨own, hown'⟩ : ∃ own, own = (streamBytes fs).take (e + t - f.length) := ⟨_, rfl⟩
  have hownlen : own.length = e + t - f.length := by
    rw [hown', List.length_take_of_le]
    omega
  have hnew : Lies s.mem (base + 4096 * (k : Int)) (f.bytes.drop e ++ own) := by
    have hlies := ha.lies
    have hcut : (((streamBytes (f :: fs)).drop e).take t) = f.bytes.drop e ++ own := by
      have hdrop : (f.bytes.drop e).length = f.length - e := by rw [List.length_drop, Framed.length_bytes]
      rw [streamBytes_cons, List.drop_append_of_le_length (by rw [Framed.length_bytes]; omega), List.take_append,
        List.take_of_length_le (by omega), hdrop, hown']
      congr 2
      omega
    rwa [hcut] at hlies
  have hsum : f.length - e + own.length = t := by omega
  have hapart : prev.m_frame.m_buf + f.length ≤ d.m_frame.m_buf ∨
      d.m_frame.m_buf + (f.length - e + own.length : Nat) ≤ prev.m_frame.m_buf := by
    rw [hat.buf, hatk.buf, hsum]
    omega
  rw [← hatk.buf] at hnew
  obtain ⟨m₁, hjoin, hfull, hrest, hsame⟩ := PackPerData.joinPrev_ok hleft hlt hnew (by
    rw [← List.length_eq_zero_iff, hownlen]
    exact hown) hapart
  rw [hsum, hownlen] at hjoin
  rw [hsum] at hsame
  refine ⟨j, m₁, { prev with m_pExtendStart := none, m_isFinish := true, m_nExtendLen := 0 }, hext, hne, ?_,
    ⟨hat.index, hat.frame, hat.nPost, hat.buf, hat.len⟩, ?_, ?_, fun x hx hx' => ?_⟩
  · have hpos' : prev.m_nExtendLen > 0 := by
      rw [hleft.len]
      exact hpos
    rw [RecvSession.joinData, hio, hext]
    simp only [RecvSession.buf, hd, hprev, bind, Except.bind, if_pos hpos', hlen, hjoin]
  · rw [← hat.buf]
    exact hfull
  · refine ⟨ha.buffers.set ⟨hat.index, hat.frame, hat.nPost, hat.buf, hat.len⟩, ha.lt, ha.lt_ext, fun d' hd' => ?_, by omega,
      by omega, ?_, fun i d' hd' _ => ?_, fun hpos => absurd hpos (lt_irrefl 0)⟩
    · rw [List.getElem?_set_ne hne] at hd'
      exact ha.prev d' hd'
    · rw [List.drop_zero, ← hown', ← hatk.buf]
      exact hrest
    · rw [List.getElem?_set] at hd'
      split_ifs at hd' with heq hin
      · cases hd'
        rfl
      · exact hzero i d' hd' (.inr fun h => heq (Option.some.inj (hext.symm.trans h)))
  · refine hsame x ?_ ?_
    · rw [hat.buf]
      exact hx
    · rw [hatk.buf]
      omega

end Arrived

/-- The frames of the buffer are taken, and `left` bytes of the next one are left over behind them. -/
structure Behind (base : Int) (m : Mem) (bufs : List PackPerData) (k left : Nat) (todo : List Framed) : Prop where
  buffers : Bufs base bufs
  zero : ∀ (i : Nat) d, bufs[i]? = some d → i ≠ k → d.m_nExtendLen = 0
  len : ∀ d, bufs[k]? = some d → d.m_nExtendLen = left
  left : 0 < left → ∀ d, bufs[k]? = some d → ∃ f rest p, todo = f :: rest ∧ f.HasLeft left ∧
    PackPerData.LeftOver m d f left p ∧ p + left ≤ base + 4096 * (k : Int) + 4096

namespace Arrived

variable {s : RecvSession} {io : TmpPerIO} {m₁ : Mem} {nFlag : Bool} {pExtend : Option Nat} {T q : Nat} {pre : List MsgFrame}

/-- The frame of the buffer before, when it was completed. -/
def Before (m : Mem) (bufs : List PackPerData) (k : Nat) (pExtend : Option Nat) (nFlag : Bool) (pre : List MsgFrame) : Prop :=
  if nFlag then ∃ j prev, pExtend = some j ∧ j ≠ k ∧ bufs[j]? = some prev ∧ prev.m_index = j ∧ pre = [prev.getCurComplateFrame m]
  else pre = []

/-- The frame of the buffer before is taken with those of this one. -/
theorem Before.prev (hpre : Before m₁ bufs₁ k pExtend nFlag pre) {d' : PackPerData} (hd' : d'.m_pPrevPerData = pExtend) :
    if nFlag then ∃ j prev, d'.m_pPrevPerData = some j ∧ j ≠ k ∧ bufs₁[j]? = some prev ∧ prev.m_index = j ∧
      pre = [prev.getCurComplateFrame m₁] else pre = [] := by
  rw [hd']
  exact hpre

/-- The first frame is whole. -/
theorem taken_whole (ha : Arrived base m₁ bufs₁ k pExtend 0 T (f :: fs)) (hbuf : io.pBuf = base + 4096 * (k : Int) + q)
    (hjoin : s.joinData k io = .ok (m₁, bufs₁, T - q, nFlag)) (hq : q < T) (hbig : 24 < T)
    (hfit : f.length ≤ T) (hrest : q = 0 ∨ T = f.length) (hpre : Before m₁ bufs₁ k pExtend nFlag pre) :
    ∃ bufs', s.taken k io = .ok ⟨m₁, bufs', s.posted,
        pre ++ Arrival.ownFrames base k (f :: (PackPerData.whole (T - f.length) fs).1), false⟩ ∧
      Behind base m₁ bufs' k (PackPerData.whole (T - f.length) fs).2 (fs.drop (PackPerData.whole (T - f.length) fs).1.length) := by
  obtain ⟨d, hd⟩ := ha.buffers.get ha.lt
  have hat := ha.buffers.place k d hd
  have hzero := ha.zero_of hd
  have hlies := ha.lies
  have henough := ha.enough
  have hfits := ha.fits
  have hge := f.le_length
  rw [List.drop_zero] at hlies
  rw [streamBytes_cons, List.length_append, Framed.length_bytes] at henough
  have henough' : T - f.length ≤ (streamBytes fs).length := by omega
  have hhead : Lies m₁ d.m_frame.m_buf (f.bytes.take 24) := by
    have := hlies.take 24
    rwa [List.take_take, Nat.min_eq_left (by omega), streamBytes_cons,
      List.take_append_of_le_length (by rw [Framed.length_bytes]; omega), ← hat.buf] at this
  have hown := PackPerData.recvOwn_whole io.pPrevIOData hhead hat.len hfits hq hbig hfit hrest hzero
  rw [hat.buf, ← hbuf] at hown
  have htaken := RecvSession.taken_of_join hjoin hd hown (hpre.prev (ha.prev d hd))
  have hload := Framed.load hhead
  obtain ⟨rest, hsplit, hlen, hleft⟩ := PackPerData.whole_prefix (T - f.length) fs
  have hrestlies : Lies m₁ (d.m_frame.m_buf + f.length) ((streamBytes fs).take (T - f.length)) := by
    have htlen : ((streamBytes (f :: fs)).take T).length = T := by
      rw [List.length_take_of_le]
      rw [streamBytes_cons, List.length_append, Framed.length_bytes]
      omega
    have := hlies.drop (n := f.length) (by rw [htlen]; exact hfit)
    rwa [List.drop_take, streamBytes_cons, List.drop_left' (Framed.length_bytes f), ← hat.buf] at this
  have hothers : PackPerData.otherFrames m₁ d.m_index (T - f.length) (d.m_frame.m_buf + f.length) (T - f.length) = _ :=
    PackPerData.otherFrames_eq henough' hrestlies le_rfl
  rw [if_pos ⟨le_rfl, rfl⟩] at htaken
  simp only [PackPerData.setNoticeStatus, PackPerData.getOtherFrameCount, PackPerData.getCurComplateFrame, hload,
    f.nFrameLen, hothers] at htaken
  rw [hat.index, hat.buf, Option.toList_none, List.append_nil, decide_eq_false (lt_irrefl _), Bool.and_false] at htaken
  refine ⟨_, htaken, ?_, ?_, ?_, ?_⟩
  · exact ha.buffers.set ⟨rfl, hat.frame, hat.nPost, hat.buf, hat.len⟩
  · intro i d' hd' hne
    rw [List.getElem?_set_ne (Ne.symm hne)] at hd'
    exact ha.zero_of hd'
  · intro d' hd'
    rw [getElem?_set_self_of hd] at hd'
    cases hd'
    rfl
  · intro hpos d' hd'
    rw [getElem?_set_self_of hd] at hd'
    cases hd'
    have hdrop : fs.drop (PackPerData.whole (T - f.length) fs).1.length = rest :=
      (congrArg (List.drop _) hsplit).trans (List.drop_left ..)
    rw [PackPerData.whole_cut, hdrop, lies_append, hat.buf] at hrestlies
    obtain ⟨f', hf', hle⟩ := hleft henough' hpos
    cases rest with
    | nil => cases hf'
    | cons g rest =>
      cases hf'
      rw [hdrop]
      refine ⟨f', rest, _, rfl, hle, ⟨hpos, rfl, rfl, ?_, ?_⟩, ?_⟩
      · dsimp only
        rw [hat.buf]
        omega
      · have hlast := hrestlies.2
        rwa [streamBytes_cons, List.take_append_of_le_length (by rw [Framed.length_bytes]; exact hle.1)] at hlast
      · omega

/-- A part of the first frame is there, and the rest of it is asked for. -/
theorem taken_part (ha : Arrived base m₁ bufs₁ k pExtend 0 T (f :: fs)) (hbuf : io.pBuf = base + 4096 * (k : Int) + q)
    (hio : io.pPrevIOData = pExtend) (hjoin : s.joinData k io = .ok (m₁, bufs₁, T - q, nFlag)) (hq : q < T) (hbig : 24 < T)
    (hshort : T < f.length) (hunset : ∀ d, bufs₁[k]? = some d → d.m_isFinish = false)
    (hpre : Before m₁ bufs₁ k pExtend nFlag pre) :
    ∃ bufs', s.taken k io = .ok ⟨m₁, bufs', s.posted ++ [⟨base + 4096 * (k : Int) + T, f.length - T, k, pExtend⟩], pre, nFlag⟩ ∧
      Arrived base m₁ bufs' k pExtend 0 T (f :: fs) := by
  obtain ⟨d, hd⟩ := ha.buffers.get ha.lt
  have hat := ha.buffers.place k d hd
  have hlies := ha.lies
  rw [List.drop_zero] at hlies
  have hhead : Lies m₁ d.m_frame.m_buf (f.bytes.take 24) := by
    have := hlies.take 24
    have hge := f.le_length
    rwa [List.take_take, Nat.min_eq_left (by omega), streamBytes_cons,
      List.take_append_of_le_length (by rw [Framed.length_bytes]; omega), ← hat.buf] at this
  have hown := PackPerData.recvOwn_part io.pPrevIOData hhead hat.len hq hbig hshort
  rw [hat.buf, ← hbuf] at hown
  have htaken := RecvSession.taken_of_join hjoin hd hown (hpre.prev (ha.prev d hd))
  have hfinish : ¬((2 : Int) ≥ 0 ∧ d.m_isFinish) := by
    rw [hunset d hd]
    exact fun h => Bool.false_ne_true h.2
  rw [if_neg hfinish, hio, hat.index] at htaken
  simp only [Option.toList, show decide ((2 : Int) > 0) = true from rfl, Bool.and_true] at htaken
  refine ⟨_, htaken, ha.buffers.set ⟨rfl, hat.frame, hat.nPost, hat.buf, hat.len⟩, ha.lt, ha.lt_ext, fun d' hd' => ?_, ha.fits,
    ha.enough, ha.lies, fun i d' hd' h => ?_, fun hpos => absurd hpos (lt_irrefl 0)⟩
  · rw [getElem?_set_self_of hd] at hd'
    cases hd'
    exact ha.prev d hd
  · rw [List.getElem?_set] at hd'
    split_ifs at hd' with heq hin
    · cases hd'
      have hzero := ha.zero_of hd
      exact hzero
    · exact ha.zero i d' hd' h

/-- Only the frame of the buffer before is there. -/
theorem taken_none (ha : Arrived base m₁ bufs₁ k pExtend 0 0 fs) (hjoin : s.joinData k io = .ok (m₁, bufs₁, 0, nFlag))
    (hpre : Before m₁ bufs₁ k pExtend nFlag pre) :
    ∃ bufs', s.taken k io = .ok ⟨m₁, bufs', s.posted, pre, false⟩ ∧ Behind base m₁ bufs' k 0 fs := by
  obtain ⟨d, hd⟩ := ha.buffers.get ha.lt
  have hat := ha.buffers.place k d hd
  have hown := PackPerData.recvOwn_none d m₁ io.pBuf io.pPrevIOData
  have htaken := RecvSession.taken_of_join hjoin hd hown (hpre.prev (ha.prev d hd))
  rw [if_neg (fun h => absurd h.1 (by decide)), Option.toList_none, List.append_nil,
    decide_eq_false (by decide), Bool.and_false] at htaken
  refine ⟨_, htaken, ha.buffers.set ⟨hat.index, hat.frame, hat.nPost, hat.buf, hat.len⟩, fun i d' hd' hne => ?_,
    fun d' hd' => ?_, fun hpos => absurd hpos (lt_irrefl 0)⟩
  · rw [List.getElem?_set_ne (Ne.symm hne)] at hd'
    exact ha.zero_of hd'
  · rw [getElem?_set_self_of hd] at hd'
    cases hd'
    have hzero := ha.zero_of hd
    exact hzero

end Arrived

/-! ## What a pass takes -/

/-- A part of the next frame is in the buffer, and the rest of it is asked for. -/
structure Asked (base : Int) (k : Nat) (pExtend : Option Nat) (posted : List PostReq) (a : Arrival) (todo : List Framed)
    (t : Taken) : Prop where
  posted : ∃ f rest, todo = f :: rest ∧ a.total < f.length ∧
    t.posted = posted ++ [⟨base + 4096 * (k : Int) + a.total, f.length - a.total, k, pExtend⟩]
  bFlag : t.bFlag = !a.joined.isEmpty
  arrived : Arrived base t.mem t.m_RecvBuf k pExtend 0 a.total todo

/-- The bytes are taken up to those left over, and no request is posted yet. -/
structure Passed (base : Int) (k : Nat) (posted : List PostReq) (a : Arrival) (todo : List Framed) (t : Taken) : Prop where
  posted : t.posted = posted
  bFlag : t.bFlag = false
  behind : Behind base t.mem t.m_RecvBuf k a.left todo

/-- A pass takes the frames of the arrival. -/
structure Brought (base : Int) (s : RecvSession) (k : Nat) (pExtend : Option Nat) (a : Arrival) (todo todo' : List Framed)
    (t : Taken) : Prop where
  todo : todo = (a.joined ++ a.own) ++ todo'
  frames : t.frames = a.frames base (pExtend.getD 0) k
  holds : List.Forall₂ (Holds True t.mem) t.frames a.msgs
  liesIn : ∀ fr ∈ t.frames, fr.LiesIn base t.mem k ∨ a.joined ≠ [] ∧ fr.LiesIn base t.mem (pExtend.getD 0)
  same : ∀ x, x < base + 4096 * (k : Int) ∨ base + 4096 * (k : Int) + 4096 ≤ x →
    (∀ f ∈ a.joined, x < base + 4096 * ((pExtend.getD 0 : Nat) : Int) ∨ base + 4096 * ((pExtend.getD 0 : Nat) : Int) + f.length ≤ x) →
    t.mem x = s.mem x
  outcome : a.Partial ∧ Asked base k pExtend s.posted a todo' t ∨ ¬a.Partial ∧ Passed base k s.posted a todo' t

namespace Arrived

variable {s : RecvSession} {io : TmpPerIO} {m₁ : Mem} {nFlag : Bool} {pExtend : Option Nat} {e T t q : Nat}
  {pre : List MsgFrame}

/-- What becomes of the bytes of the buffer. -/
theorem outcome (joined : List Framed) (ha : Arrived base m₁ bufs₁ k pExtend 0 T todo) (hbuf : io.pBuf = base + 4096 * (k : Int) + q)
    (hio : io.pPrevIOData = pExtend) (hjoin : s.joinData k io = .ok (m₁, bufs₁, T - q, nFlag))
    (hbig : T = 0 ∨ q < T ∧ 24 < T) (hrest : q = 0 ∨ ∃ f ∈ todo.head?, T ≤ f.length)
    (hunset : (Arrival.ofBuffer joined T todo).Partial → ∀ d, bufs₁[k]? = some d → d.m_isFinish = false)
    (hpre : Before m₁ bufs₁ k pExtend nFlag pre) (hflag : nFlag = !joined.isEmpty) :
    ∃ t todo', s.taken k io = .ok t ∧ t.mem = m₁ ∧ todo = (Arrival.ofBuffer joined T todo).own ++ todo' ∧
      t.frames = pre ++ Arrival.ownFrames base k (Arrival.ofBuffer joined T todo).own ∧
      Lies m₁ (base + 4096 * (k : Int)) (streamBytes (Arrival.ofBuffer joined T todo).own) ∧
      (streamBytes (Arrival.ofBuffer joined T todo).own).length ≤ 4096 ∧
      ((Arrival.ofBuffer joined T todo).Partial ∧ Asked base k pExtend s.posted (Arrival.ofBuffer joined T todo) todo' t ∨
        ¬(Arrival.ofBuffer joined T todo).Partial ∧ Passed base k s.posted (Arrival.ofBuffer joined T todo) todo' t) := by
  cases todo with
  | nil =>
    have hzero : T = 0 := by
      have henough := ha.enough
      simp only [streamBytes, List.flatMap_nil, List.length_nil] at henough
      omega
    subst hzero
    obtain ⟨bufs', htaken, hbehind⟩ := ha.taken_none (by simpa using hjoin) hpre
    exact ⟨_, [], htaken, rfl, rfl, (List.append_nil _).symm, rfl, Nat.zero_le _,
      .inr ⟨fun h => absurd h.2 (lt_irrefl 0), rfl, rfl, hbehind⟩⟩
  | cons f fs =>
    by_cases hshort : T < f.length
    · have harr : Arrival.ofBuffer joined T (f :: fs) = ⟨joined, [], T, 0⟩ := by rw [Arrival.ofBuffer, if_pos hshort]
      rw [harr] at hunset ⊢
      cases hbig with
      | inl hzero =>
        subst hzero
        obtain ⟨bufs', htaken, hbehind⟩ := ha.taken_none (by simpa using hjoin) hpre
        exact ⟨_, f :: fs, htaken, rfl, rfl, (List.append_nil _).symm, rfl, Nat.zero_le _,
          .inr ⟨fun h => absurd h.2 (lt_irrefl 0), rfl, rfl, hbehind⟩⟩
      | inr hbig =>
        have hpart : Arrival.Partial ⟨joined, [], T, 0⟩ := ⟨rfl, by dsimp only; omega⟩
        obtain ⟨bufs', htaken, harrived⟩ := ha.taken_part hbuf hio hjoin hbig.1 hbig.2 hshort (hunset hpart) hpre
        exact ⟨_, f :: fs, htaken, rfl, rfl, (List.append_nil _).symm, rfl, Nat.zero_le _,
          .inl ⟨hpart, ⟨f, fs, rfl, hshort, rfl⟩, hflag, harrived⟩⟩
    · have harr : Arrival.ofBuffer joined T (f :: fs) = ⟨joined, f :: (PackPerData.whole (T - f.length) fs).1, T,
          (PackPerData.whole (T - f.length) fs).2⟩ := by rw [Arrival.ofBuffer, if_neg hshort]
      rw [harr]
      have hge := f.le_length
      have hbig' : q < T ∧ 24 < T := by
        cases hbig with
        | inl hzero => omega
        | inr hbig => exact hbig
      have hrest' : q = 0 ∨ T = f.length := by
        cases hrest with
        | inl h => exact .inl h
        | inr h =>
          obtain ⟨f', hf', hle⟩ := h
          cases hf'
          exact .inr (by omega)
      obtain ⟨bufs', htaken, hbehind⟩ := ha.taken_whole hbuf hjoin hbig'.1 hbig'.2 (by omega) hrest' hpre
      obtain ⟨rest, hsplit, hlen, -⟩ := PackPerData.whole_prefix (T - f.length) fs
      have hlies := ha.lies
      have hfits := ha.fits
      have hown : (streamBytes (f :: (PackPerData.whole (T - f.length) fs).1)).length ≤ T := by
        rw [streamBytes_cons, List.length_append, Framed.length_bytes]
        omega
      rw [List.drop_zero, PackPerData.whole_cut_cons (Nat.le_of_not_lt hshort), lies_append] at hlies
      have hdrop : fs.drop (PackPerData.whole (T - f.length) fs).1.length = rest :=
        (congrArg (List.drop _) hsplit).trans (List.drop_left ..)
      rw [hdrop] at hbehind
      refine ⟨_, rest, htaken, rfl, ?_, rfl, hlies.1, hown.trans hfits,
        .inr ⟨fun h => absurd h.1 (List.cons_ne_nil _ _), rfl, rfl, hbehind⟩⟩
      rw [List.cons_append, ← hsplit]

/-- A completion brings the frames its lengths say. -/
theorem brought (io : TmpPerIO) (ha : Arrived base s.mem s.m_RecvBuf k pExtend e t todo) (hbuf : io.pBuf = base + 4096 * (k : Int) + q)
    (hio : io.pPrevIOData = pExtend) (hlen : io.len = t - q) (hq : q < t) (hqe : 0 < e → q = 0)
    (hjoin : 0 < e → ∃ f ∈ todo.head?, e < f.length ∧ f.length ≤ e + t)
    (hbig : 24 < (Arrival.of e t todo).total ∨ 0 < e ∧ (Arrival.of e t todo).total = 0)
    (hrest : q = 0 ∨ ∃ f ∈ todo.head?, t ≤ f.length)
    (hunset : (Arrival.of e t todo).Partial → ∀ d, s.m_RecvBuf[k]? = some d → d.m_isFinish = false) :
    ∃ tk todo', s.taken k io = .ok tk ∧ Brought base s k pExtend (Arrival.of e t todo) todo todo' tk := by
  by_cases he : e = 0
  · subst he
    rw [Arrival.of_zero] at hbig hunset ⊢
    have htotal : (Arrival.ofBuffer [] t todo).total = t := Arrival.total_ofBuffer ..
    have hjoined : (Arrival.ofBuffer [] t todo).joined = [] := Arrival.joined_ofBuffer ..
    have hjoin' := ha.join_none hio
    rw [hlen] at hjoin'
    obtain ⟨tk, todo', htaken, hmem, htodo, hframes, hlies, hle, hout⟩ := ha.outcome [] hbuf hio hjoin'
      (.inr (by omega)) hrest hunset (show Before s.mem s.m_RecvBuf k pExtend false [] from rfl) rfl
    rw [List.nil_append] at hframes
    refine ⟨tk, todo', htaken, ?_, ?_, ?_, fun fr hfr => .inl ?_, fun x _ _ => by rw [hmem], hout⟩
    · rw [hjoined, List.nil_append]
      exact htodo
    · rw [Arrival.frames, hjoined, hframes]
      rfl
    · rw [hframes, hmem, Arrival.msgs, hjoined, List.nil_append]
      exact Arrival.holds_ownFrames hlies
    · rw [hframes] at hfr
      rw [hmem]
      exact Arrival.liesIn_ownFrames hlies hle fr hfr
  · have hpos : 0 < e := Nat.pos_of_ne_zero he
    obtain ⟨f, hf, hlt, hle⟩ := hjoin hpos
    clear hrest
    cases todo with
    | nil => cases hf
    | cons f' fs =>
      cases hf
      rw [Arrival.of_pos t _ fs he] at hbig hunset ⊢
      have htotal : (Arrival.ofBuffer [f] (e + t - f.length) fs).total = e + t - f.length := Arrival.total_ofBuffer ..
      have hjoined : (Arrival.ofBuffer [f] (e + t - f.length) fs).joined = [f] := Arrival.joined_ofBuffer ..
      have hq0 := hqe hpos
      subst hq0
      obtain ⟨j, m₁, prev, hext, hne, hjoin', hat, hfull, harrived, hsame⟩ := ha.join_left hpos hlt hle (by omega) hio
        (by omega)
      have hprev : (s.m_RecvBuf.set j prev)[j]? = some prev := by
        obtain ⟨d, hd⟩ := ha.buffers.get (ha.lt_ext j hext)
        exact getElem?_set_self_of hd
      have hbefore : Before m₁ (s.m_RecvBuf.set j prev) k pExtend true [prev.getCurComplateFrame m₁] :=
        ⟨j, prev, hext, hne, hprev, hat.index, rfl⟩
      obtain ⟨tk, todo', htaken, hmem, htodo, hframes, hlies, hle', hout⟩ := harrived.outcome (q := 0) [f] hbuf hio
        hjoin' (by omega) (.inl rfl) (fun hp d hd => hunset hp d (by rwa [List.getElem?_set_ne hne] at hd)) hbefore rfl
      have hframe : prev.getCurComplateFrame m₁ = ⟨f.length, 0, (j : Int), base + 4096 * (j : Int)⟩ := by
        have hload := Framed.load_of_lies hfull
        rw [PackPerData.getCurComplateFrame, hat.buf, hload, f.nFrameLen, hat.index]
      have hj : pExtend.getD 0 = j := by rw [hext, Option.getD_some]
      have hlow := f.end_eq hfull
      have hfl := f.length_le
      rw [hframe] at hframes
      refine ⟨tk, todo', htaken, ?_, ?_, ?_, fun fr hfr => ?_, fun x hx hx' => ?_, hout⟩
      · rw [hjoined, List.singleton_append, List.cons_append, ← htodo]
      · rw [Arrival.frames, hjoined, hframes, hj]
        rfl
      · rw [hframes, hmem, Arrival.msgs, hjoined]
        exact .cons (f.holds hfull rfl) (Arrival.holds_ownFrames hlies)
      · rw [hframes] at hfr
        rw [hmem, hj, hjoined]
        cases List.mem_append.1 hfr with
        | inl hfr =>
          rw [List.mem_singleton.1 hfr]
          refine .inr ⟨List.cons_ne_nil _ _, rfl, le_rfl, ?_⟩
          dsimp only
          omega
        | inr hfr => exact .inl (Arrival.liesIn_ownFrames hlies hle' fr hfr)
      · rw [hj, hjoined] at hx'
        rw [hmem]
        exact hsame x (hx' f (List.mem_singleton_self f)) hx

end Arrived
