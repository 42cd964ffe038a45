/-
What has been packed goes out once, in order, however the network cuts it.

While a buffer goes out (`Sending`), the one request the network has is for
the rest of its valid bytes. A report moves the request on, or hands over to
the next buffer, or ends the transfer (`notice_spec`); the bytes reported are
then a prefix of the valid bytes of the buffers in their order (`resumed_run`).
-/
import XFramework.Net.SendSession

open Bytes Fallible

namespace SendSession

/-- What never changes about `n` buffers that lie at the addresses `a`. -/
structure Buffers (a : Nat → Int) (n : Nat) (s : SendSession) : Prop where
  count : s.m_SendBuf.length = n
  each : ∀ (j : Nat) d, s.m_SendBuf[j]? = some d → d.m_index = j ∧ d.m_nPost = 0 ∧ d.m_isFinish = false ∧
    d.m_frame.len = PERIOPOSTSIZE ∧ d.m_frame.m_index = (j : Int) ∧ d.m_frame.m_buf = a j

/-- Of `k` buffers with the valid lengths `v`, those before `i` are out, and `o` bytes of `i`. -/
structure Sending (a : Nat → Int) (n : Nat) (v : Nat → Nat) (k : Nat) (s : SendSession) (i o : Nat) : Prop where
  bufs : Buffers a n s
  within : k ≤ n
  valid : ∀ j d, i ≤ j → j < k → s.m_SendBuf[j]? = some d → d.m_frame.m_nValidLen = v j
  writing : s.m_finishW = 0
  current : s.m_wPostIndex = i
  count : s.m_nWriteCount = k
  inRange : i < k
  rest : o < v i
  request : s.posted = [⟨a i + o, v i - o, i, none⟩]

/-- Nothing is on its way. -/
structure Idle (a : Nat → Int) (n : Nat) (s : SendSession) : Prop where
  bufs : Buffers a n s
  finished : s.m_finishW = 1
  request : s.posted = []

variable {a : Nat → Int} {n k i o m : Nat} {v : Nat → Nat} {s : SendSession} {d : PackPerData}

/-- A buffer is stored back with other lengths and marks. -/
theorem Buffers.store (h : Buffers a n s) (req : Option PostReq) (hi : d.m_index = i) (hp : d.m_nPost = 0)
    (hf : d.m_isFinish = false) (hlen : d.m_frame.len = PERIOPOSTSIZE) (hidx : d.m_frame.m_index = (i : Int))
    (hbuf : d.m_frame.m_buf = a i) : Buffers a n (s.store i (d, req)) where
  count := by
    rw [SendSession.store, List.length_set, h.count]
  each := by
    intro j e he
    simp only [SendSession.store, List.getElem?_set] at he
    split_ifs at he with hij hlt
    · subst hij
      cases he
      exact ⟨hi, hp, hf, hlen, hidx, hbuf⟩
    · exact h.each j e he

theorem Buffers.read (h : Buffers a n s) (hi : i < n) : ∃ d, s.m_SendBuf[i]? = some d :=
  ⟨_, List.getElem?_eq_getElem (h.count ▸ hi)⟩

theorem Buffers.congr {t : SendSession} (h : Buffers a n s) (hb : t.m_SendBuf = s.m_SendBuf) : Buffers a n t :=
  ⟨hb ▸ h.count, hb ▸ h.each⟩

/-- The next buffer is posted from its start. -/
theorem postCurrent_spec (h : Buffers a n s) (hk : k ≤ n) (hi : i < k) (hcur : s.m_wPostIndex = i) (ha : a i ≠ 0)
    (hv : 0 < v i) (hw : s.m_finishW = 0) (hc : s.m_nWriteCount = k) (hreq : s.posted = [])
    (hvalid : ∀ j d, i ≤ j → j < k → s.m_SendBuf[j]? = some d → d.m_frame.m_nValidLen = v j) :
    ∃ s', postCurrent s = .ok s' ∧ Sending a n v k s' i 0 := by
  obtain ⟨d, hd⟩ := h.read (i := i) (by omega)
  obtain ⟨hidx, hpost, hfin, hlen, hfidx, hbuf⟩ := h.each i d hd
  have hlenv := hvalid i d le_rfl hi hd
  have hrun : d.postSend = ({ d with m_pDataCur := some d.m_frame.m_buf }, some ⟨a i, v i, i, none⟩) := by
    rw [PackPerData.postSend, if_neg (by omega)]
    simp only [hbuf, ha, if_false, hlenv, hv, if_true, hidx]
  refine ⟨s.store i d.postSend, ?_, ?_⟩
  · rw [postCurrent, hcur, hd]
  · rw [hrun]
    refine ⟨h.store _ hidx hpost hfin hlen hfidx hbuf, hk, ?_, hw, hcur, hc, hi, hv, ?_⟩
    · intro j e hij hj he
      simp only [SendSession.store, List.getElem?_set] at he
      split_ifs at he with hji hlt
      · subst hji
        cases he
        exact hlenv
      · exact hvalid j e hij hj he
    · simp only [SendSession.store, hreq, List.nil_append, Option.toList_some, Nat.cast_zero, add_zero, Nat.sub_zero]

/-- Not all of the buffer is out: the rest is asked for. -/
theorem recordSendData_part {p : Int} (hbuf : p = d.m_frame.m_buf + o) (hm : 0 < m) (hlt : o + m < d.m_frame.m_nValidLen) :
    d.recordSendData p m = ({ d with m_pDataCur := some (p + m) },
      some ⟨p + m, d.m_frame.m_nValidLen - (o + m), d.m_index, none⟩, 0) := by
  have hlen : (d.m_frame.m_buf + (d.m_frame.m_nValidLen : Int) - (p + m)).toNat = d.m_frame.m_nValidLen - (o + m) := by omega
  simp only [PackPerData.recordSendData, hlen]
  rw [if_neg (by omega), if_pos (by omega), if_neg (by omega)]

/-- The buffer is out. -/
theorem recordSendData_last {p : Int} (hbuf : p = d.m_frame.m_buf + o) (hm : 0 < m) (hlt : o + m = d.m_frame.m_nValidLen) :
    d.recordSendData p m = ({ d with m_pDataCur := some d.m_frame.m_buf, m_frame := d.m_frame.resetValidDataLen 0,
                                     m_isFinish := true }, none, 0) := by
  simp only [PackPerData.recordSendData]
  rw [if_neg (by omega), if_pos (by omega), if_pos (by omega)]

/-- A report of `m` bytes. -/
theorem notice_spec (h : Sending a n v k s i o) (hn : n < 16) (ha : ∀ j < n, a j ≠ 0) (hv : ∀ j < k, 0 < v j) (hm : 0 < m)
    (hle : o + m ≤ v i) :
    ∃ s', noticeComplateSend { s with posted := [] } i (a i + o) m = .ok s' ∧
      ((o + m < v i ∧ Sending a n v k s' i (o + m)) ∨ (o + m = v i ∧ i + 1 < k ∧ Sending a n v k s' (i + 1) 0) ∨
        (o + m = v i ∧ i + 1 = k ∧ Idle a n s')) := by
  have hik := h.inRange
  have hkn := h.within
  have hb : Buffers a n { s with posted := [] } := h.bufs.congr rfl
  obtain ⟨d, hd⟩ := h.bufs.read (i := i) (by omega)
  obtain ⟨hidx, hpost, hfin, hlen, hfidx, hbuf⟩ := h.bufs.each i d hd
  have hlenv := h.valid i d le_rfl hik hd
  by_cases hpart : o + m < v i
  · have hrec := recordSendData_part (p := a i + o) (hbuf ▸ rfl) hm (hlenv.symm ▸ hpart)
    rw [hidx, hlenv] at hrec
    refine ⟨_, by simp only [noticeComplateSend, hd, hrec, hfin]; rfl, .inl ⟨hpart, ?_⟩⟩
    refine ⟨hb.store _ rfl hpost rfl hlen hfidx hbuf, hkn, ?_, h.writing, h.current, h.count, hik, hpart, ?_⟩
    · intro j e hij hj he
      simp only [SendSession.store, List.getElem?_set] at he
      split_ifs at he with hji hlt
      · subst hji
        cases he
        exact hlenv
      · exact h.valid j e hij hj he
    · simp only [SendSession.store, List.nil_append, Option.toList_some, Nat.cast_add, add_assoc]
  · have hfull : o + m = v i := by omega
    have hrec := recordSendData_last (p := a i + o) (hbuf ▸ rfl) hm (hlenv.symm ▸ hfull)
    have hb₁ := hb.store (d := { d with m_pDataCur := some d.m_frame.m_buf, m_frame := d.m_frame.resetValidDataLen 0,
                                        m_isFinish := false }) none hidx hpost rfl hlen hfidx hbuf
    generalize hs₁ : ({ s with posted := [] } : SendSession).store i ({ d with
      m_pDataCur := some d.m_frame.m_buf, m_frame := d.m_frame.resetValidDataLen 0, m_isFinish := false }, none) = s₁ at hb₁
    have hreq₁ : s₁.posted = [] := by rw [← hs₁]; rfl
    have hcur₁ : s₁.m_wPostIndex = i := by rw [← hs₁]; exact h.current
    have hcnt₁ : s₁.m_nWriteCount = k := by rw [← hs₁]; exact h.count
    have hwr₁ : s₁.m_finishW = 0 := by rw [← hs₁]; exact h.writing
    have hcall : noticeComplateSend { s with posted := [] } i (a i + o) m =
        if i + 1 = k then .ok { s₁ with m_wPostIndex := 0, m_nWriteCount := 0, m_finishW := 1 }
        else postCurrent { s₁ with m_wPostIndex := (i + 1) % 16 } := by
      simp only [noticeComplateSend, hd, hrec, if_true, PackPerData.setNoticeStatus, hs₁, hcur₁, hcnt₁]
    rw [hcall]
    by_cases hlast : i + 1 = k
    · rw [if_pos hlast]
      exact ⟨_, rfl, .inr (.inr ⟨hfull, hlast, hb₁.congr rfl, rfl, hreq₁⟩)⟩
    · rw [if_neg hlast]
      have hvalid : ∀ j e, i + 1 ≤ j → j < k → s₁.m_SendBuf[j]? = some e → e.m_frame.m_nValidLen = v j := by
        intro j e hij hj he
        simp only [← hs₁, SendSession.store, List.getElem?_set] at he
        split_ifs at he with hji hlt
        · omega
        · exact h.valid j e (by omega) hj he
      obtain ⟨s', hrun, hs'⟩ := postCurrent_spec (s := { s₁ with m_wPostIndex := (i + 1) % 16 }) (v := v) (hb₁.congr rfl) hkn
        (show i + 1 < k by omega) (Nat.mod_eq_of_lt (by omega)) (ha _ (by omega)) (hv _ (by omega)) hwr₁ hcnt₁ hreq₁ hvalid
      exact ⟨s', hrun, .inr (.inl ⟨hfull, by omega, hs'⟩)⟩

/-! ## The whole transfer -/

/-- `n` addresses from `p` on. -/
def span (p : Int) (n : Nat) : List Int := (List.range n).map fun x : Nat => p + (x : Int)

/-- The addresses of the valid bytes of `k` buffers. -/
def allBytes (a : Nat → Int) (v : Nat → Nat) (k : Nat) : List Int := (List.range k).flatMap fun j => span (a j) (v j)

/-- Those before byte `o` of buffer `i`. -/
def bytesUpTo (a : Nat → Int) (v : Nat → Nat) (i o : Nat) : List Int := allBytes a v i ++ span (a i) o

theorem span_add (p : Int) (m n : Nat) : span p (m + n) = span p m ++ span (p + m) n := by
  simp only [span, List.range_add, List.map_append, List.map_map]
  congr 1
  refine List.map_congr_left fun x _ => ?_
  simp only [Function.comp_apply, Nat.cast_add, add_assoc]

theorem bytesUpTo_add (a : Nat → Int) (v : Nat → Nat) (i o m : Nat) :
    bytesUpTo a v i o ++ span (a i + o) m = bytesUpTo a v i (o + m) := by
  rw [bytesUpTo, bytesUpTo, List.append_assoc, ← span_add]

theorem allBytes_succ (a : Nat → Int) (v : Nat → Nat) (i : Nat) : allBytes a v (i + 1) = bytesUpTo a v i (v i) := by
  rw [allBytes, List.range_succ, List.flatMap_append, bytesUpTo, allBytes]
  simp

theorem bytesUpTo_zero (a : Nat → Int) (v : Nat → Nat) (i : Nat) : bytesUpTo a v i 0 = allBytes a v i :=
  List.append_nil _

/-- What is left of a transfer. -/
theorem allBytes_split (hik : i < k) (ho : o ≤ v i) :
    ∃ rest, allBytes a v k = bytesUpTo a v i o ++ span (a i + o) (v i - o) ++ rest := by
  refine ⟨((List.range k).drop (i + 1)).flatMap fun j => span (a j) (v j), ?_⟩
  have htake : (List.range k).take (i + 1) = List.range (i + 1) := by rw [List.take_range, Nat.min_eq_left (by omega)]
  rw [bytesUpTo_add, Nat.add_sub_cancel' ho, ← allBytes_succ, allBytes, allBytes, ← htake, ← List.flatMap_append,
    List.take_append_drop]

/-- A session, and the addresses of the bytes that were reported sent. -/
structure Transfer where
  session : SendSession
  sent : List Int

/-- The network reports `m` bytes of the request it has. -/
def Transfer.report (t : Transfer) (m : Nat) : Except PackError Transfer :=
  match t.session.posted with
  | [] => .ok t
  | r :: rest => do
    let s ← { t.session with posted := rest }.noticeComplateSend r.nIndex r.pStart m
    .ok ⟨s, t.sent ++ span r.pStart m⟩

/-- It reports a byte at least, and no more than it was asked for. -/
def Transfer.Reported (t : Transfer) (m : Nat) : Prop := ∃ r ∈ t.session.posted.head?, 0 < m ∧ m ≤ r.len

instance (t : Transfer) (m : Nat) : Decidable (t.Reported m) := inferInstanceAs (Decidable (∃ r ∈ _, _))

/-- Where a transfer of `k` buffers can be. -/
def Transfer.Underway (a : Nat → Int) (n : Nat) (v : Nat → Nat) (k : Nat) (t : Transfer) : Prop :=
  (∃ i o, Sending a n v k t.session i o ∧ t.sent = bytesUpTo a v i o) ∨ (Idle a n t.session ∧ t.sent = allBytes a v k)

theorem Transfer.Underway.report {t : Transfer} (h : t.Underway a n v k) (hn : n < 16) (ha : ∀ j < n, a j ≠ 0)
    (hv : ∀ j < k, 0 < v j) (hm : t.Reported m) : ∃ t', t.report m = .ok t' ∧ t'.Underway a n v k := by
  obtain ⟨r, hr, hpos, hle⟩ := hm
  rcases h with ⟨i, o, hs, hsent⟩ | ⟨hidle, -⟩
  · have hreq := hs.request
    rw [hreq] at hr
    cases hr
    have hrest := hs.rest
    have hle : m ≤ v i - o := hle
    obtain ⟨s', hrun, hnext⟩ := notice_spec hs hn ha hv hpos (show o + m ≤ v i by omega)
    refine ⟨⟨s', t.sent ++ span (a i + o) m⟩, by rw [Transfer.report, hreq]; exact bind_eq_ok.2 ⟨s', hrun, rfl⟩, ?_⟩
    rw [hsent, bytesUpTo_add]
    rcases hnext with ⟨-, hs'⟩ | ⟨hfull, -, hs'⟩ | ⟨hfull, hlast, hidle⟩
    · exact .inl ⟨i, o + m, hs', rfl⟩
    · exact .inl ⟨i + 1, 0, hs', by rw [hfull, ← allBytes_succ, bytesUpTo_zero]⟩
    · exact .inr ⟨hidle, by rw [hfull, ← allBytes_succ, hlast]⟩
  · rw [hidle.request] at hr
    cases hr

/-- What must be seen of a transfer in every state. -/
structure Transfer.Exact (a : Nat → Int) (v : Nat → Nat) (k : Nat) (t : Transfer) : Prop where
  inOrder : t.sent <+: allBytes a v k
  single : t.session.posted.length ≤ 1
  within : ∀ r ∈ t.session.posted, r.nIndex < k ∧ a r.nIndex ≤ r.pStart ∧ r.pStart + r.len ≤ a r.nIndex + v r.nIndex
  finished : t.session.m_finishW = 1 ↔ t.sent = allBytes a v k

theorem Transfer.Underway.exact {t : Transfer} (h : t.Underway a n v k) : t.Exact a v k := by
  rcases h with ⟨i, o, hs, hsent⟩ | ⟨hidle, hsent⟩
  · have hrest := hs.rest
    obtain ⟨rest, hall⟩ := allBytes_split (a := a) hs.inRange hrest.le
    refine ⟨⟨span (a i + o) (v i - o) ++ rest, by rw [hsent, hall, List.append_assoc]⟩, by rw [hs.request]; rfl, ?_, ?_⟩
    · intro r hr
      rw [hs.request, List.mem_singleton] at hr
      rw [hr]
      exact ⟨hs.inRange, by simp only; omega, by simp only; omega⟩
    · refine iff_of_false (by rw [hs.writing]; decide) fun he => ?_
      have hlen := congrArg List.length (hsent.symm.trans (he.trans hall))
      simp only [List.length_append, span, List.length_map, List.length_range] at hlen
      omega
  · exact ⟨hsent ▸ List.prefix_refl _, by rw [hidle.request]; exact Nat.zero_le _, by rw [hidle.request]; simp,
      iff_of_true hidle.finished hsent⟩

/-- `PostSend` has packed `k` buffers with the valid lengths `v`, and posts the first. -/
structure Packaged (m_tmpSendBuf : Int) (v : Nat → Nat) (k : Nat) (s : SendSession) : Prop where
  owned : 0 < m_tmpSendBuf
  bufs : Buffers (fun j => m_tmpSendBuf + PERIOPOSTSIZE * (j : Int)) 2 s
  some : 0 < k
  within : k ≤ 2
  positive : ∀ j < k, 0 < v j
  valid : ∀ j d, j < k → s.m_SendBuf[j]? = .some d → d.m_frame.m_nValidLen = v j
  writing : s.m_finishW = 0
  current : s.m_wPostIndex = 0
  count : s.m_nWriteCount = k
  request : s.posted = []

theorem Packaged.start {p : Int} (h : Packaged p v k s) :
    ∃ s₀, postCurrent s = .ok s₀ ∧ Sending (fun j => p + PERIOPOSTSIZE * (j : Int)) 2 v k s₀ 0 0 := by
  have hp := h.owned
  refine postCurrent_spec h.bufs h.within h.some h.current ?_ (h.positive 0 h.some) h.writing h.count h.request
    fun j d _ hj hd => h.valid j d hj hd
  simp only [Nat.cast_zero, mul_zero]
  omega

/-- However the network reports what it has sent, what was packed goes out once and in order. -/
theorem resumed_run {p : Int} {ms : List Nat} (h : Packaged p v k s) : ∃ s₀, postCurrent s = .ok s₀ ∧
    (Along Transfer.report Transfer.Reported ⟨s₀, []⟩ ms → ∃ t, ms.foldlM Transfer.report ⟨s₀, []⟩ = .ok t ∧
      t.Exact (fun j => p + PERIOPOSTSIZE * (j : Int)) v k) := by
  have hp := h.owned
  obtain ⟨s₀, hrun, hs₀⟩ := h.start
  refine ⟨s₀, hrun, fun hms => ?_⟩
  have hbegin : Transfer.Underway (fun j => p + PERIOPOSTSIZE * (j : Int)) 2 v k ⟨s₀, []⟩ := .inl ⟨0, 0, hs₀, rfl⟩
  obtain ⟨t, ht, hway⟩ := Along.run _ hms hbegin fun t m hway hm =>
    hway.report (by decide) (fun j _ => by simp only [PERIOPOSTSIZE, Nat.cast_ofNat]; omega) h.positive hm
  exact ⟨t, ht, hway.exact⟩

theorem eq_of_range_map {β : Type} {f : Nat → β} {j : Nat} {b : β} (h : ((List.range n).map f)[j]? = some b) :
    j < n ∧ b = f j := by
  rw [List.getElem?_map, Option.map_eq_some_iff] at h
  obtain ⟨i, hi, rfl⟩ := h
  obtain ⟨hlt, hi⟩ := List.getElem?_eq_some_iff.1 hi
  rw [List.getElem_range] at hi
  exact ⟨by simpa using hlt, hi ▸ rfl⟩

/-- A session with `k` buffers packed to the lengths `v`. -/
def packaged (m : Mem) (p : Int) (v : Nat → Nat) (k : Nat) : SendSession :=
  { init m p with
    m_finishW := 0
    m_nWriteCount := k
    m_SendBuf := (List.range 2).map fun i : Nat =>
      { PackPerData.new i (p + PERIOPOSTSIZE * (i : Int)) PERIOPOSTSIZE with
        m_frame := ⟨PERIOPOSTSIZE, v i, i, p + PERIOPOSTSIZE * (i : Int)⟩ } }

theorem packaged_spec {p : Int} (m : Mem) (hp : 0 < p) (hk : 0 < k) (hk' : k ≤ 2) (hv : ∀ j < k, 0 < v j) :
    Packaged p v k (packaged m p v k) := by
  refine ⟨hp, ⟨rfl, fun j d hd => ?_⟩, hk, hk', hv, fun j d _ hd => ?_, rfl, rfl, rfl, rfl⟩
  · obtain ⟨-, rfl⟩ := eq_of_range_map hd
    exact ⟨rfl, rfl, rfl, rfl, rfl, rfl⟩
  · obtain ⟨-, rfl⟩ := eq_of_range_map hd
    rfl

theorem resumed_run_two : ∃ s₀ t, postCurrent (packaged (fun _ => 0) 1000 (fun j => 5 - j) 2) = .ok s₀ ∧
    [2, 3, 1, 3].foldlM Transfer.report ⟨s₀, []⟩ = .ok t ∧
      t.Exact (fun j => 1000 + PERIOPOSTSIZE * (j : Int)) (fun j => 5 - j) 2 := by
  have hms : ∃ s₀, postCurrent (packaged (fun _ => 0) 1000 (fun j => 5 - j) 2) = .ok s₀ ∧
      Along Transfer.report Transfer.Reported ⟨s₀, []⟩ [2, 3, 1, 3] := by decide +kernel
  obtain ⟨s₁, hs₁, hms⟩ := hms
  have hpackaged := packaged_spec (v := fun j => 5 - j) (fun _ => 0) (by decide : (0 : Int) < 1000) (by decide : 0 < 2) le_rfl
    (by decide)
  obtain ⟨s₀, hs₀, hrun⟩ := resumed_run hpackaged
  rw [← Except.ok.inj (hs₀.symm.trans hs₁)] at hms
  obtain ⟨t, ht, hexact⟩ := hrun hms
  exact ⟨s₀, t, hs₀, ht, hexact⟩

end SendSession
