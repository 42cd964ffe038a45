/-
When the sending half never stalls.

`Packaging` counts the frame under its cursor, and after a message that ends
where a frame ends the cursor stands at the next one, still empty (`Mark.fresh`).
Such a frame asks for nothing when its turn comes, and no report moves the
session on. In runs in which no batch ends there the one request on its way
is for the buffer of `m_wPostIndex` (`unstalled_run`).
-/
import XFramework.Net.SenderWire
import XFramework.Net.SendTransfer

open Bytes Fallible

namespace PackageProxy

/-- What a package comes down to after encryption and compression. -/
def validLength (h : SessionHandle) (p : NetPackage) : Nat := h.compress p (h.code p)

/-- The data lengths of the messages of a package. -/
def messageLengths (h : SessionHandle) (p : NetPackage) : List Nat :=
  match h.getData p with
  | (_, none) => []
  | (len, some pData) => if len > 0 then (transFrames pData len).map List.length else [0]

/-- The packages the capacity test lets through. -/
def admittedBy (h : SessionHandle) (totalCapacity : Nat) : List NetPackage → Nat → Nat → List NetPackage
  | [], _, _ => []
  | p :: theQueue, i, totalSend =>
    if totalSend + validLength h p + (i + 1) * 24 > totalCapacity then []
    else p :: admittedBy h totalCapacity theQueue (i + 1) (totalSend + validLength h p)

/-- Where the sender stands by its own count, and whether the frame there is still empty. -/
structure Mark where
  pos : Nat
  fresh : Bool

/-- Behind a message with `len` bytes of data. -/
def Mark.after (k : Mark) (len : Nat) : Mark := ⟨k.pos + 24 + len - lag k.pos, 24 + len == room k.pos⟩

/-- Behind the messages of a queue. -/
def batchMark (h : SessionHandle) (totalCapacity : Nat) (theQueue : List NetPackage) : Mark :=
  ((admittedBy h totalCapacity theQueue 0 0).flatMap (messageLengths h)).foldl Mark.after ⟨0, true⟩

/-- The cursor stands at the mark; a frame that is not fresh holds bytes. -/
def AtMark (base : Int) (n : Nat) (c : Cursor) (k : Mark) : Prop :=
  ∃ s, At base n c k.pos s ∧ (k.fresh = false → 4096 * c.fIndex < s)

variable {base : Int} {n : Nat} {c c' : Cursor} {k : Mark} {h : SessionHandle} {p : NetPackage}

theorem AtMark.build {nFrameNo srcLen tf : Nat} (hat : AtMark base n c k) (pSrc : Option (List UInt8))
    (hd : (pSrc.getD []).length ≤ 1000) (hb : buildPackage c pSrc nFrameNo srcLen tf p = .ok c') :
    AtMark base n c' (k.after (pSrc.getD []).length) := by
  obtain ⟨s, hat, -⟩ := hat
  obtain ⟨hat', -⟩ := build_at hat hd hb
  refine ⟨_, hat', fun hfresh => ?_⟩
  have hne : 24 + (pSrc.getD []).length ≠ room k.pos := by simpa [Mark.after] using hfresh
  have hbegun := hat'.begun
  have hoff := hat'.offset
  have hroom : room k.pos = 4096 - k.pos % 4096 := rfl
  have hlag : lag k.pos = 24 - room k.pos := rfl
  by_contra hge
  -- the message would end where the frame ends
  have hend : k.pos + 24 + (pSrc.getD []).length = 4096 * c'.fIndex := by omega
  omega

theorem length_chunk {pData chunk : List UInt8} {len : Nat} (hc : chunk ∈ transFrames pData len) : chunk.length ≤ 1000 := by
  obtain ⟨ci, -, rfl⟩ := List.mem_map.1 hc
  refine (List.length_take_le _ _).trans ?_
  split_ifs with hci
  · exact le_rfl
  · omega

theorem AtMark.sendPackage {validLen : Nat} (hat : AtMark base n c k) (hs : sendPackage h c p validLen = .ok c') :
    AtMark base n c' ((messageLengths h p).foldl Mark.after k) := by
  rw [PackageProxy.sendPackage] at hs
  rw [messageLengths]
  cases hdata : h.getData p with
  | mk len data =>
    rw [hdata] at hs
    cases data with
    | none => cases hs
    | some pData =>
      dsimp only at hs ⊢
      split_ifs at hs ⊢ with hvalid hpos
      · have hzip : ((transFrames pData len).map List.length).foldl Mark.after k =
            (transFrames pData len).zipIdx.foldl (fun k t => k.after t.1.length) k := by
          calc ((transFrames pData len).map List.length).foldl Mark.after k
              = (((transFrames pData len).zipIdx.map Prod.fst).map List.length).foldl Mark.after k := by
                rw [List.zipIdx_map_fst]
            _ = _ := by rw [List.foldl_map, List.foldl_map]
        rw [hzip]
        refine foldlM_foldl (AtMark base n) hs hat fun c k t c' ht hat hb => ?_
        exact hat.build (some t.1) (length_chunk (List.fst_mem_of_mem_zipIdx ht)) hb
      · exact hat.build none (Nat.zero_le _) hs

/-! ## The whole call -/

/-- The pass ends behind the admitted packages, or the first one does not fit. -/
theorem queueLoop_mark {cap : Nat} {theQueue : List NetPackage} {i totalSend : Nat} {o : Outcome} (hat : AtMark base n c k)
    (hq : queueLoop h cap theQueue i totalSend c = .ok o) :
    (o = .restart ∧ i = 0 ∧ ∃ p, theQueue.head? = some p ∧ totalSend + validLength h p + 24 > cap) ∨
      ∃ c' count, o = .done c' count ∧
        ∃ q, AtMark base n c' ⟨q, (((admittedBy h cap theQueue i totalSend).flatMap (messageLengths h)).foldl Mark.after k).fresh⟩ := by
  induction theQueue generalizing i totalSend c k with
  | nil =>
    rw [queueLoop] at hq
    cases hq
    exact .inr ⟨c, i, rfl, k.pos, hat⟩
  | cons p theQueue ih =>
    rw [queueLoop] at hq
    change (if 2 ^ 31 ≤ totalSend + validLength h p then _
      else if totalSend + validLength h p + (i + 1) * 24 > cap then _ else _) = _ at hq
    rw [admittedBy]
    split_ifs at hq ⊢ with hover hfull hi hoff
    · subst hi
      cases hq
      exact .inl ⟨rfl, rfl, p, rfl, by omega⟩
    · cases hq
      obtain ⟨s, hat, hfresh⟩ := hat
      refine .inr ⟨_, i, rfl, k.pos, k.pos, ?_, fun hf => ?_⟩
      · rw [hat.frames, resetValid_framesAt (Nat.lt_trans hat.below (by omega))]
        exact at_framesAt hat.inRange hat.below hat.offset hat.offset
      · have := hat.offset
        dsimp only
        omega
    · cases hq
      exact .inr ⟨c, i, rfl, k.pos, hat⟩
    · obtain ⟨c₁, hsent, hq⟩ := bind_eq_ok.1 hq
      have hat₁ := hat.sendPackage hsent
      have hin : ¬c₁.fIndex = c₁.frames.length := by
        obtain ⟨s, hat₁, -⟩ := hat₁
        rw [hat₁.frames, length_framesAt]
        exact Nat.ne_of_lt hat₁.inRange
      rw [if_neg hin] at hq
      rw [List.flatMap_cons, List.foldl_append]
      rcases ih hat₁ hq with ⟨-, hi, -⟩ | hdone
      · omega
      · exact .inr hdone

/-- When it ends, a package of a queue that is not empty has gone out. -/
theorem admittedBy_ne_nil {fuel : Nat} {m : Mem} {theQueue : List NetPackage} {r : Packed} (hne : theQueue ≠ [])
    (hr : packaging fuel h m (sendFrames base n) theQueue = .ok r) : admittedBy h (4096 * n) theQueue 0 0 ≠ [] := by
  intro hnil
  obtain ⟨p, rest, rfl⟩ := List.exists_cons_of_ne_nil hne
  rw [admittedBy] at hnil
  split_ifs at hnil with hfull
  obtain ⟨first, -, hr⟩ := bind_eq_ok.1 hr
  refine absurd hr (packFrom_restart (p := p) rfl ?_)
  simp only [sendFrames_eq, capacity_sum]
  simp only [validLength] at hfull
  omega

/-- What `Packaging` leaves of the frames: full ones, one under way, and empty ones. -/
theorem packaging_mark {fuel : Nat} {m : Mem} {theQueue : List NetPackage} {r : Packed} (hn : 0 < n)
    (hr : packaging fuel h m (sendFrames base n) theQueue = .ok r) :
    ∃ f v, f < n ∧ r.frames = framesAt base n f v ∧ r.nFrameCount = f + 1 ∧
      ((batchMark h (4096 * n) theQueue).fresh = false → 0 < v) := by
  rw [sendFrames_eq] at hr
  obtain ⟨first, hfirst, hr⟩ := bind_eq_ok.1 hr
  have hat : AtMark base n ⟨m, framesAt base n 0 0, first.m_buf, 0, 0⟩ ⟨0, true⟩ :=
    ⟨0, at_framesAt hn (by omega) rfl rfl, by simp⟩
  cases fuel with
  | zero => cases hr
  | succ fuel =>
    simp only [packFrom, capacity_sum] at hr
    split_ifs at hr
    cases hq : queueLoop h (4096 * n) theQueue 0 0 ⟨m, framesAt base n 0 0, first.m_buf, 0, 0⟩ with
    | error e =>
      rw [hq] at hr
      cases hr
    | ok o =>
      rw [hq] at hr
      rcases queueLoop_mark hat hq with ⟨rfl, -, p, hp, hfull⟩ | ⟨c', count, rfl, q, s, hat', hfresh⟩
      · refine absurd hr (packFrom_restart hp ?_)
        simp only [List.map_append, List.sum_append, capacity_sum]
        simp only [MsgFrame.new, MsgFrame.capacity, List.map_cons, List.map_nil, List.sum_cons, List.sum_nil]
        simp only [validLength] at hfull
        omega
      · cases hr
        refine ⟨c'.fIndex, _, hat'.inRange, hat'.frames, rfl, fun hf => ?_⟩
        have := hfresh hf
        omega

end PackageProxy

namespace SendSession

variable {p : Int} {h : SessionHandle} {s s' : SendSession} {fuel : Nat}

/-- `PostSend` packs a batch whose last message ends where a frame ends. -/
def FillsFrame (h : SessionHandle) (s : SendSession) : Prop :=
  s.m_bOnline = true ∧ s.m_finishW = 1 ∧ PackageProxy.admittedBy h (4096 * 2) s.m_sendQueue 0 0 ≠ [] ∧
    (PackageProxy.batchMark h (4096 * 2) s.m_sendQueue).fresh = true

instance (h : SessionHandle) (s : SendSession) : Decidable (FillsFrame h s) := inferInstanceAs (Decidable (_ ∧ _))

/-- The buffers emptied are the frames `Packaging` starts from. -/
theorem frames_resetBuffers (hb : Buffers (fun j => p + PERIOPOSTSIZE * (j : Int)) 2 s) :
    s.resetBuffers.m_SendBuf.map (·.m_frame) = sendFrames p 2 := by
  refine List.ext_getElem? fun j => ?_
  rw [resetBuffers, List.map_map, List.getElem?_map, sendFrames, List.getElem?_map]
  by_cases hj : j < 2
  · obtain ⟨d, hd⟩ := hb.read hj
    obtain ⟨-, -, -, hlen, hidx, hbuf⟩ := hb.each j d hd
    rw [hd, List.getElem?_range hj]
    simp only [Option.map_some, Function.comp_apply, MsgFrame.resetValidDataLen, hlen, hidx, hbuf, Nat.zero_mod]
  · have hnone : s.m_SendBuf[j]? = none := List.getElem?_eq_none (by rw [hb.count]; omega)
    rw [hnone, List.getElem?_eq_none (by rw [List.length_range]; omega)]
    rfl

/-- The buffers with the frames as `Packaging` leaves them. -/
theorem buffers_packed {f v : Nat} {m : Mem} (hb : Buffers (fun j => p + PERIOPOSTSIZE * (j : Int)) 2 s)
    {bufs : List PackPerData} (hbufs : bufs = s.resetBuffers.m_SendBuf.zipWith (fun d f => { d with m_frame := f })
      (PackageProxy.framesAt p 2 f v)) :
    Buffers (fun j => p + PERIOPOSTSIZE * (j : Int)) 2 { s with mem := m, m_SendBuf := bufs } ∧
      ∀ j d, bufs[j]? = some d → d.m_frame.m_nValidLen = if j < f then 4096 else if j = f then v else 0 := by
  have hread : ∀ (j : Nat) d, bufs[j]? = some d → ∃ e, s.m_SendBuf[j]? = some e ∧ d = { e with
      m_isFinish := false, m_frame := ⟨4096, if j < f then 4096 else if j = f then v else 0, j, p + 4096 * (j : Int)⟩ } := by
    intro j d hd
    rw [hbufs, List.getElem?_zipWith] at hd
    simp only [resetBuffers, List.getElem?_map, PackageProxy.getElem?_framesAt] at hd
    cases he : s.m_SendBuf[j]? with
    | none =>
      rw [he] at hd
      cases hd
    | some e =>
      have hj : j < 2 := by
        rw [← hb.count]
        exact (List.getElem?_eq_some_iff.1 he).1
      rw [he, if_pos hj] at hd
      cases hd
      exact ⟨e, rfl, rfl⟩
  refine ⟨⟨?_, fun j d hd => ?_⟩, fun j d hd => ?_⟩
  · simp only [hbufs, List.length_zipWith, resetBuffers, List.length_map, hb.count, PackageProxy.length_framesAt, min_self]
  · obtain ⟨e, he, rfl⟩ := hread j d hd
    obtain ⟨hidx, hpost, -⟩ := hb.each j e he
    exact ⟨hidx, hpost, rfl, rfl, rfl, rfl⟩
  · obtain ⟨e, -, rfl⟩ := hread j d hd
    rfl

/-- `PostSend` leaves the session idle or on its way. -/
theorem postSend_spec (hp : 0 < p) (hs : Idle (fun j => p + PERIOPOSTSIZE * (j : Int)) 2 s) (hclear : ¬FillsFrame h s)
    (hrun : s.postSend fuel h = .ok s') : Idle (fun j => p + PERIOPOSTSIZE * (j : Int)) 2 s' ∨
      ∃ v k, (∀ j < k, 0 < v j) ∧ Sending (fun j => p + PERIOPOSTSIZE * (j : Int)) 2 v k s' 0 0 := by
  rw [postSend] at hrun
  split_ifs at hrun with hgo
  · obtain ⟨r, hr, hrun⟩ := bind_eq_ok.1 hrun
    rw [frames_resetBuffers hs.bufs] at hr
    obtain ⟨f, v, hf, hframes, hcount, hpos⟩ := PackageProxy.packaging_mark (by decide) hr
    have hfresh : (PackageProxy.batchMark h (4096 * 2) s.m_sendQueue).fresh = false := by
      rw [Bool.eq_false_iff]
      exact fun hf => hclear ⟨hgo.1, hgo.2.1, PackageProxy.admittedBy_ne_nil hgo.2.2 hr, hf⟩
    rw [hframes] at hrun
    obtain ⟨hb, hvalid⟩ := buffers_packed (f := f) (v := v) (m := r.mem) hs.bufs rfl
    split_ifs at hrun with hout
    · obtain ⟨s₀, hpost, hsend⟩ := postCurrent_spec (i := 0) (k := f + 1) (n := 2)
        (a := fun j => p + PERIOPOSTSIZE * (j : Int)) (v := fun j => if j < f then 4096 else v) (s := { s with
          mem := r.mem, m_sendQueue := s.m_sendQueue.drop r.count, m_wPostIndex := 0, m_nWriteCount := r.nFrameCount % 16,
          m_finishW := 0, m_SendBuf := s.resetBuffers.m_SendBuf.zipWith (fun d f => { d with m_frame := f }) (PackageProxy.framesAt p 2 f v) })
        (hb.congr rfl) (by omega) (by omega) rfl (by simp only [Nat.cast_zero, mul_zero]; omega)
        (by have := hpos hfresh; split_ifs <;> omega) rfl (by dsimp only; rw [hcount]; omega) hs.request
        (fun j d _ hj hd => by
          rw [hvalid j d hd]
          split_ifs with h₁ h₂
          · rfl
          · rfl
          · omega)
      have hs' : s' = s₀ := Except.ok.inj (hrun.symm.trans hpost)
      refine .inr ⟨_, f + 1, fun j _ => ?_, hs' ▸ hsend⟩
      have := hpos hfresh
      split_ifs <;> omega
    · cases hrun
      exact .inl ⟨hb.congr rfl, hs.finished, hs.request⟩
  · cases hrun
    exact .inl hs

/-! ## Runs -/

inductive Action
  | send (p : NetPackage)
  | postSend
  | notice (len : Nat)

/-- A package is queued; the worker calls `PostSend`; the network reports bytes of its request. -/
def step (fuel : Nat) (h : SessionHandle) (s : SendSession) : Action → Except PackError SendSession
  | .send p => .ok (s.sendNetPackage p)
  | .postSend => s.postSend fuel h
  | .notice len =>
    match s.posted with
    | [] => .ok s
    | r :: rest => { s with posted := rest }.noticeComplateSend r.nIndex r.pStart len

/-- A report is of a byte at least, and of no more than was asked for. -/
def Allowed (s : SendSession) : Action → Prop
  | .notice len => ∃ r ∈ s.posted.head?, 0 < len ∧ len ≤ r.len
  | _ => True

/-- No batch is packed that ends where a frame ends. -/
def Clear (h : SessionHandle) (s : SendSession) : Action → Prop
  | .postSend => ¬FillsFrame h s
  | _ => True

instance (s : SendSession) (x : Action) : Decidable (Allowed s x) :=
  match x with
  | .send _ => isTrue trivial
  | .postSend => isTrue trivial
  | .notice _ => inferInstanceAs (Decidable (∃ r ∈ _, _))

instance (h : SessionHandle) (s : SendSession) (x : Action) : Decidable (Clear h s x) :=
  match x with
  | .send _ => isTrue trivial
  | .postSend => inferInstanceAs (Decidable (¬_))
  | .notice _ => isTrue trivial

/-- While a batch goes out, one request is on its way, for the buffer of `m_wPostIndex`. -/
def Progress (s : SendSession) : Prop := s.m_finishW = 0 →
  (∃ r, s.posted = [r] ∧ ∃ d ∈ s.m_SendBuf[s.m_wPostIndex]?, r.nIndex = d.m_index ∧ d.m_frame.m_buf ≤ r.pStart ∧
    r.pStart + r.len ≤ d.m_frame.m_buf + d.m_frame.m_nValidLen) ∧
  s.m_wPostIndex < s.m_nWriteCount ∧ s.m_nWriteCount ≤ s.m_SendBuf.length

/-- What holds of a session between its calls. -/
def Inv (p : Int) (s : SendSession) : Prop := Idle (fun j => p + PERIOPOSTSIZE * (j : Int)) 2 s ∨
  ∃ v k i o, (∀ j < k, 0 < v j) ∧ Sending (fun j => p + PERIOPOSTSIZE * (j : Int)) 2 v k s i o

theorem Inv.progress (hs : Inv p s) : Progress s := by
  intro hw
  rcases hs with hidle | ⟨v, k, i, o, -, hs⟩
  · rw [hidle.finished] at hw
    cases hw
  · have hik := hs.inRange
    have hkn := hs.within
    have hrest := hs.rest
    obtain ⟨d, hd⟩ := hs.bufs.read (i := i) (by omega)
    obtain ⟨hidx, -, -, -, -, hbuf⟩ := hs.bufs.each i d hd
    have hlen := hs.valid i d le_rfl hik hd
    refine ⟨⟨_, hs.request, d, hs.current ▸ hd, hidx.symm, ?_, ?_⟩, ?_, ?_⟩
    · rw [hbuf]
      dsimp only
      omega
    · rw [hbuf, hlen]
      dsimp only
      omega
    · rw [hs.current, hs.count]
      exact hik
    · rw [hs.count, hs.bufs.count]
      exact hkn

theorem Inv.step {x : Action} (hp : 0 < p) (hs : Inv p s) (ha : Allowed s x) (hc : Clear h s x)
    (hrun : SendSession.step fuel h s x = .ok s') : Inv p s' := by
  cases x with
  | send q =>
    cases hrun
    rw [sendNetPackage]
    split_ifs
    · rcases hs with hidle | ⟨v, k, i, o, hv, hs⟩
      · exact .inl ⟨hidle.bufs.congr rfl, hidle.finished, hidle.request⟩
      · exact .inr ⟨v, k, i, o, hv, hs.bufs.congr rfl, hs.within, hs.valid, hs.writing, hs.current, hs.count, hs.inRange,
          hs.rest, hs.request⟩
    · exact hs
  | postSend =>
    rcases hs with hidle | ⟨v, k, i, o, hv, hs⟩
    · rcases postSend_spec hp hidle hc hrun with hidle' | ⟨v, k, hv, hs'⟩
      · exact .inl hidle'
      · exact .inr ⟨v, k, 0, 0, hv, hs'⟩
    · -- a batch is on its way
      have hbusy : ¬(s.m_bOnline = true ∧ s.m_finishW = 1 ∧ s.m_sendQueue ≠ []) := by
        rw [hs.writing]
        simp
      have hrun : s.postSend fuel h = .ok s' := hrun
      rw [SendSession.postSend, if_neg hbusy] at hrun
      cases hrun
      exact .inr ⟨v, k, i, o, hv, hs⟩
  | notice len =>
    obtain ⟨r, hr, hpos, hle⟩ := ha
    rcases hs with hidle | ⟨v, k, i, o, hv, hs⟩
    · rw [hidle.request] at hr
      cases hr
    · have hreq := hs.request
      have hrest := hs.rest
      rw [hreq] at hr
      cases hr
      have hle : len ≤ v i - o := hle
      simp only [SendSession.step, hreq] at hrun
      obtain ⟨s₁, hnotice, hnext⟩ := notice_spec hs (by decide) (fun j _ => by simp only [PERIOPOSTSIZE, Nat.cast_ofNat]; omega)
        hv hpos (show o + len ≤ v i by omega)
      have hs₁ : s' = s₁ := Except.ok.inj (hrun.symm.trans hnotice)
      rw [hs₁]
      rcases hnext with ⟨-, hs'⟩ | ⟨-, -, hs'⟩ | ⟨-, -, hidle⟩
      · exact .inr ⟨v, k, i, o + len, hv, hs'⟩
      · exact .inr ⟨v, k, i + 1, 0, hv, hs'⟩
      · exact .inl hidle

theorem Inv.init (m : Mem) (p : Int) : Inv p (SendSession.init m p) := by
  refine .inl ⟨⟨rfl, fun j d hd => ?_⟩, rfl, rfl⟩
  obtain ⟨-, rfl⟩ := eq_of_range_map hd
  exact ⟨rfl, rfl, rfl, rfl, rfl, rfl⟩

/-- Two batches, the second queued while the first goes out in pieces. -/
def twoBatches : List Action :=
  [.send (PackageProxy.zeros 4100), .postSend, .notice 4000, .send (PackageProxy.zeros 3), .postSend, .notice 96, .notice 124,
    .postSend, .notice 27, .postSend]

end SendSession
