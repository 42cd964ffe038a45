/-
`Packaging` as one loop over messages.

With the codec that changes nothing, the packages the capacity test admits
(`admitted`) are cut into their messages, and `BuildPackage` is called for
each in turn (`packaging_run`). A first package that is not admitted never
gets out: each restart adds a frame of capacity 0.
-/
import XFramework.Net.BuildPackage

open Bytes Fallible

namespace Message

/-- The head of the message, the lengths of this frame left at 0. -/
def head (g : Message) : MsgHead := PackageProxy.frameHead g.index g.pkg.m_len g.total g.pkg

end Message

namespace PackageProxy

variable {base : Int} {n P s : Nat} {c c' : Cursor} {p : NetPackage}

/-- `BuildPackage` for one message. -/
def send (c : Cursor) (g : Message) : Except PackError Cursor :=
  buildPackage c (if g.pkg.m_len = 0 then none else some g.chunk) g.index g.pkg.m_len g.total g.pkg

theorem totalFrames_eq (len : Nat) (h : 0 < len) : totalFrames len = max 1 ((len + 999) / 1000) := by
  rw [totalFrames]
  split_ifs <;> omega

theorem zipIdx_range (k : Nat) : (List.range k).zipIdx = (List.range k).map fun i => (i, i) :=
  List.ext_getElem (by simp) fun i _ _ => by simp

/-- A package goes out message by message. -/
theorem sendPackage_identity (h : sendPackage .identity c p p.m_len = .ok c') : p.messages.foldlM send c = .ok c' := by
  obtain ⟨data, hdata⟩ : ∃ data, p.m_pData = some data := by
    cases hp : p.m_pData with
    | none =>
      rw [sendPackage, SessionHandle.identity] at h
      simp only [hp] at h
      cases h
    | some data => exact ⟨data, rfl⟩
  have hlen : data.length = p.m_len := p.sized data hdata
  rw [sendPackage, SessionHandle.identity] at h
  simp only [hdata, ne_eq, not_true_eq_false, if_false] at h
  by_cases hpos : p.m_len > 0
  · have hchunk : ∀ ci, (data.drop (ci * 1000)).take (if (ci + 1) * 1000 < p.m_len then 1000 else p.m_len - ci * 1000) =
        (data.drop (1000 * ci)).take 1000 := by
      intro ci
      rw [Nat.mul_comm ci 1000]
      split_ifs with hci
      · rfl
      · rw [List.take_of_length_le (by rw [List.length_drop]; omega), List.take_of_length_le (by rw [List.length_drop]; omega)]
    rw [if_pos hpos, transFrames, List.zipIdx_map, zipIdx_range, List.map_map, List.foldlM_map] at h
    rw [NetPackage.messages, NetPackage.chunkCount, ← totalFrames_eq _ hpos, List.foldlM_map, hdata, ← h]
    refine congrFun (congrFun (congrArg _ (funext fun c => funext fun ci => ?_)) _) _
    simp only [send, Option.getD_some, if_neg (Nat.pos_iff_ne_zero.1 hpos), Function.comp_apply, Prod.map_apply, id_eq, hchunk]
  · have hzero : p.m_len = 0 := by omega
    have hnil : data = [] := List.length_eq_zero_iff.1 (hlen.trans hzero)
    rw [if_neg hpos] at h
    simp only [NetPackage.messages, NetPackage.chunkCount, hzero, hdata, hnil, Option.getD_some, List.drop_nil, List.take_nil]
    exact foldlM_cons_ok.2 ⟨c', by simpa [send, hzero] using h, foldlM_nil_ok.2 rfl⟩

/-! ## The pass over the queue -/

/-- The packages the capacity test lets through, `i` packages and `totalSend` bytes being out. -/
def admitted (totalCapacity : Nat) : List NetPackage → Nat → Nat → List NetPackage
  | [], _, _ => []
  | p :: theQueue, i, totalSend =>
    if totalSend + p.m_len + (i + 1) * 24 > totalCapacity then []
    else p :: admitted totalCapacity theQueue (i + 1) (totalSend + p.m_len)

/-- What a pass that is cut short does last: the frame ends at the offset. -/
def cutShort (c : Cursor) : Cursor :=
  if c.nOffset > 0 then { c with frames := resetValid c.frames c.fIndex c.nOffset } else c

theorem At.of_messages {gs : List Message} (h : At base n c P s) (hlen : ∀ g ∈ gs, g.chunk.length ≤ 1000)
    (hr : gs.foldlM send c = .ok c') : ∃ P s, At base n c' P s :=
  foldlM_run (fun c => ∃ P s, At base n c P s) hr ⟨P, s, h⟩ fun t u g hg ⟨P, s, ht⟩ hu => by
    refine ⟨_, _, (build_at ht ?_ hu).1⟩
    have := hlen g hg
    split
    · exact Nat.zero_le _
    · exact this

/-- The pass ends with every admitted package out, or before the first message. -/
theorem queueLoop_identity {cap : Nat} {theQueue : List NetPackage} {i totalSend : Nat} {o : Outcome}
    (hat : At base n c P s) (h : queueLoop .identity cap theQueue i totalSend c = .ok o) :
    (o = .restart ∧ i = 0 ∧ theQueue ≠ [] ∧ admitted cap theQueue i totalSend = []) ∨
      ∃ c₁, ((admitted cap theQueue i totalSend).flatMap NetPackage.messages).foldlM send c = .ok c₁ ∧
        o = .done (if (admitted cap theQueue i totalSend).length = theQueue.length then c₁ else cutShort c₁)
          (i + (admitted cap theQueue i totalSend).length) := by
  induction theQueue generalizing i totalSend c P s with
  | nil =>
    rw [queueLoop] at h
    cases h
    exact .inr ⟨c, rfl, rfl⟩
  | cons p theQueue ih =>
    rw [queueLoop] at h
    have hvalid : SessionHandle.identity.compress p (SessionHandle.identity.code p) = p.m_len := rfl
    simp only [hvalid] at h
    rw [admitted]
    split_ifs at h with hover hfull hi hoff
    · subst hi
      cases h
      exact .inl ⟨rfl, rfl, by simp, if_pos hfull⟩
    · cases h
      refine .inr ⟨c, by rw [if_pos hfull]; rfl, ?_⟩
      rw [if_pos hfull, if_neg (by simp), cutShort, if_pos hoff]
      rfl
    · cases h
      refine .inr ⟨c, by rw [if_pos hfull]; rfl, ?_⟩
      rw [if_pos hfull, if_neg (by simp), cutShort, if_neg hoff]
      rfl
    · obtain ⟨c₁, hsent, h⟩ := bind_eq_ok.1 h
      have hsent := sendPackage_identity hsent
      obtain ⟨P₁, s₁, hat₁⟩ := hat.of_messages (fun g hg => NetPackage.length_chunk hg) hsent
      have hin : ¬c₁.fIndex = c₁.frames.length := by
        rw [hat₁.frames, length_framesAt]
        exact Nat.ne_of_lt hat₁.inRange
      rw [if_neg hin] at h
      rw [if_neg hfull]
      rcases ih hat₁ h with ⟨-, hi, -, -⟩ | ⟨c₂, hrun, ho⟩
      · omega
      · refine .inr ⟨c₂, ?_, ?_⟩
        · rw [List.flatMap_cons]
          exact foldlM_append_ok.2 ⟨c₁, hsent, hrun⟩
        · simp only [ho, List.length_cons, Nat.add_right_cancel_iff]
          rw [Nat.add_right_comm, Nat.add_assoc]

theorem take_admitted (cap : Nat) (theQueue : List NetPackage) (i totalSend : Nat) :
    theQueue.take (admitted cap theQueue i totalSend).length = admitted cap theQueue i totalSend := by
  induction theQueue generalizing i totalSend with
  | nil => rfl
  | cons p theQueue ih =>
    rw [admitted]
    split_ifs
    · rfl
    · rw [List.length_cons, List.take_succ_cons, ih]

/-! ## The whole call -/

theorem capacity_sum (base : Int) (n f v : Nat) : ((framesAt base n f v).map MsgFrame.capacity).sum = 4096 * n := by
  rw [framesAt, List.map_map, show (MsgFrame.capacity ∘ fun i : Nat => _) = fun _ : Nat => 4096 from rfl]
  simp [Nat.mul_comm]

/-- A restart is for ever: the frames it adds hold nothing. -/
theorem packFrom_restart {h : SessionHandle} {theQueue : List NetPackage} {p : NetPackage} {fuel : Nat} {r : Packed}
    (hp : theQueue.head? = some p) (hfull : h.compress p (h.code p) + 24 > (c.frames.map MsgFrame.capacity).sum) :
    packFrom h theQueue fuel c ≠ .ok r := by
  induction fuel generalizing c with
  | zero => simp [packFrom]
  | succ fuel ih =>
    cases theQueue with
    | nil => cases hp
    | cons q theQueue =>
      cases hp
      simp only [packFrom, queueLoop, Nat.zero_add, Nat.one_mul, if_pos hfull, if_true]
      split_ifs with hover hlong
      · simp
      · simp
      · refine ih ?_
        simpa [MsgFrame.new, MsgFrame.capacity] using hfull

/-- `Packaging` over the frames of a session: the messages of the admitted packages, one after
the other, and the last frame cut at the offset when a package is left over. -/
theorem packaging_run {fuel : Nat} {m : Mem} {theQueue : List NetPackage} {r : Packed} (hn : 0 < n)
    (hr : packaging fuel .identity m (sendFrames base n) theQueue = .ok r) :
    ∃ c₁, ((admitted (4096 * n) theQueue 0 0).flatMap NetPackage.messages).foldlM send
        ⟨m, framesAt base n 0 0, base, 0, 0⟩ = .ok c₁ ∧
      r.count = (admitted (4096 * n) theQueue 0 0).length ∧
      ∃ c₂, c₂ = (if (admitted (4096 * n) theQueue 0 0).length = theQueue.length then c₁ else cutShort c₁) ∧
        r.mem = c₂.mem ∧ r.frames = c₂.frames ∧ r.nFrameCount = c₂.fIndex + 1 := by
  have hat : At base n ⟨m, framesAt base n 0 0, base, 0, 0⟩ 0 0 := at_framesAt hn (by omega) rfl rfl
  rw [sendFrames_eq] at hr
  obtain ⟨first, hfirst, hr⟩ := bind_eq_ok.1 hr
  have hbuf := (frameAt_ok hfirst).2.2
  rw [Nat.cast_zero, mul_zero, add_zero] at hbuf
  rw [hbuf] at hr
  cases fuel with
  | zero => cases hr
  | succ fuel =>
    simp only [packFrom, capacity_sum] at hr
    split_ifs at hr
    cases hq : queueLoop .identity (4096 * n) theQueue 0 0 ⟨m, framesAt base n 0 0, base, 0, 0⟩ with
    | error e =>
      rw [hq] at hr
      cases hr
    | ok o =>
      rw [hq] at hr
      rcases queueLoop_identity hat hq with ⟨rfl, -, hne, hnone⟩ | ⟨c₁, hrun, rfl⟩
      · obtain ⟨p, rest, rfl⟩ := List.exists_cons_of_ne_nil hne
        rw [admitted] at hnone
        split_ifs at hnone with hfull
        refine absurd hr (packFrom_restart (p := p) rfl ?_)
        simp only [List.map_append, List.sum_append, capacity_sum]
        simp only [MsgFrame.new, MsgFrame.capacity, SessionHandle.identity, List.map_cons, List.map_nil, List.sum_cons,
          List.sum_nil]
        omega
      · cases hr
        exact ⟨c₁, hrun, Nat.zero_add _, _, rfl, rfl, rfl, rfl⟩

end PackageProxy
