/-
The stream between a sending and a receiving session.

What a batch that is `Sendable` puts on the wire are the frames of its
packages (`packaging_frames`), the heads as the receiver reads them. The stream
grows with each batch: a session that has received a part of it goes on with
the longer one (`Serves.longer`), for what a completion brings is decided by
the bytes it brings.
-/
import XFramework.Net.SendStall
import XFramework.Net.RecvSegments

open Bytes Fallible

namespace NetPackage

/-- The frames of a package that fits the fields of a head and has its data. -/
def framed (p : NetPackage) : List Framed :=
  if h : PackageProxy.FitsHead p ∧ p.Sized then
    p.messages.attach.map fun g =>
      have hpkg := NetPackage.pkg_of_mem g.2
      ⟨PackageProxy.headAt 24 g.1.head g.1.chunk.length, g.1,
        (PackageProxy.describes_iff g.2 24).2 ⟨h.1, by decide, fun h => absurd h (by decide)⟩, hpkg.symm ▸ g.2, hpkg.symm ▸ h.2⟩
  else []

variable {p : NetPackage}

theorem msgs_framed (hfits : PackageProxy.FitsHead p) (hs : p.Sized) : p.framed.map Framed.msg = p.messages := by
  rw [framed, dif_pos ⟨hfits, hs⟩, List.map_map]
  exact List.attach_map_subtype_val _

theorem bytes_framed (hfits : PackageProxy.FitsHead p) (hs : p.Sized) : streamBytes p.framed =
    p.messages.flatMap fun g => (PackageProxy.headAt 24 g.head g.chunk.length).bytes ++ g.chunk := by
  have hall := congrArg (List.flatMap fun g : Message => (PackageProxy.headAt 24 g.head g.chunk.length).bytes ++ g.chunk)
    (List.attach_map_subtype_val p.messages)
  rw [streamBytes, framed, dif_pos ⟨hfits, hs⟩, List.flatMap_map, ← hall, List.flatMap_map]
  rfl

end NetPackage

namespace PackageProxy

variable {base : Int} {n S cap : Nat} {gs : List Message} {ps theQueue : List NetPackage} {c : Cursor} {o : Outcome}

/-- Where no length is patched amiss, a head is the one of a frame with room. -/
theorem headAt_whole {a len : Nat} (frame : MsgHead) (h12 : a ≠ 12) (h6 : a = 6 → len = 0) :
    headAt a frame len = headAt 24 frame len := by
  rw [headAt, headAt, if_neg h12]
  by_cases ha : a = 6
  · rw [h6 ha]
    simp
  · rw [if_neg ha]
    simp

theorem image_whole (h : ∀ x ∈ positions S gs, room x.1 ≠ 12 ∧ (room x.1 = 6 → x.2.chunk = [])) :
    image S gs = gs.flatMap fun g => (headAt 24 g.head g.chunk.length).bytes ++ g.chunk := by
  induction gs generalizing S with
  | nil => rfl
  | cons g gs ih =>
    rw [positions, List.forall_mem_cons] at h
    rw [image, List.flatMap_cons, ih h.2, headAt_whole g.head h.1.1 fun h6 => by rw [h.1.2 h6]; rfl]

theorem bytes_framed (h : ∀ p ∈ ps, FitsHead p ∧ p.Sized) : streamBytes (ps.flatMap NetPackage.framed) =
    (ps.flatMap NetPackage.messages).flatMap fun g => (headAt 24 g.head g.chunk.length).bytes ++ g.chunk := by
  induction ps with
  | nil => rfl
  | cons p ps ih =>
    rw [List.forall_mem_cons] at h
    rw [List.flatMap_cons, List.flatMap_cons, streamBytes_append, List.flatMap_append, ih h.2,
      NetPackage.bytes_framed h.1.1 h.1.2]

theorem msgs_framed (h : ∀ p ∈ ps, FitsHead p ∧ p.Sized) :
    (ps.flatMap NetPackage.framed).map Framed.msg = ps.flatMap NetPackage.messages := by
  rw [List.map_flatMap]
  exact List.flatMap_congr fun p hp => NetPackage.msgs_framed (h p hp).1 (h p hp).2

/-! ## A batch -/

/-- A package without its data is not packed. -/
theorem sized_of_sendPackage {c' : Cursor} {p : NetPackage} (h : sendPackage .identity c p p.m_len = .ok c') : p.Sized := by
  cases hp : p.m_pData with
  | none =>
    rw [sendPackage, SessionHandle.identity] at h
    simp only [hp] at h
    cases h
  | some data =>
    rw [NetPackage.Sized, NetPackage.data, hp]
    exact p.sized data hp

theorem queueLoop_sized {i totalSend P s : Nat} (hat : At base n c P s) (h : queueLoop .identity cap theQueue i totalSend c = .ok o) :
    ∀ p ∈ admitted cap theQueue i totalSend, p.Sized := by
  induction theQueue generalizing i totalSend c P s with
  | nil => exact List.forall_mem_nil _
  | cons p theQueue ih =>
    rw [queueLoop] at h
    have hvalid : SessionHandle.identity.compress p (SessionHandle.identity.code p) = p.m_len := rfl
    simp only [hvalid] at h
    rw [admitted]
    split_ifs at h ⊢ with hover hfull
    · exact List.forall_mem_nil _
    · exact List.forall_mem_nil _
    · exact List.forall_mem_nil _
    · obtain ⟨c₁, hsent, h⟩ := bind_eq_ok.1 h
      obtain ⟨P₁, s₁, hat₁⟩ := hat.of_messages (fun g hg => NetPackage.length_chunk hg) (sendPackage_identity hsent)
      -- the pass never runs out of frames
      have hin : ¬c₁.fIndex = c₁.frames.length := by
        rw [hat₁.frames, length_framesAt]
        exact Nat.ne_of_lt hat₁.inRange
      rw [if_neg hin] at h
      exact List.forall_mem_cons.2 ⟨sized_of_sendPackage hsent, ih hat₁ h⟩

theorem packaging_sized {fuel : Nat} {m : Mem} {r : Packed} (hn : 0 < n)
    (hr : packaging fuel .identity m (sendFrames base n) theQueue = .ok r) : ∀ p ∈ admitted (4096 * n) theQueue 0 0, p.Sized := by
  rw [sendFrames_eq] at hr
  obtain ⟨first, hfirst, hr⟩ := bind_eq_ok.1 hr
  cases fuel with
  | zero => cases hr
  | succ fuel =>
    simp only [packFrom, capacity_sum] at hr
    split_ifs at hr
    cases hq : queueLoop .identity (4096 * n) theQueue 0 0 ⟨m, framesAt base n 0 0, first.m_buf, 0, 0⟩ with
    | error e =>
      rw [hq] at hr
      cases hr
    | ok o => exact queueLoop_sized (at_framesAt hn (by omega) rfl rfl) hq

instance (n : Nat) (theQueue : List NetPackage) : Decidable (Sendable n theQueue) :=
  decidable_of_iff
    ((∀ p ∈ admitted (4096 * n) theQueue 0 0, FitsHead p) ∧
      Straight 0 ((admitted (4096 * n) theQueue 0 0).flatMap NetPackage.messages) ∧
      ∀ x ∈ (positions 0 ((admitted (4096 * n) theQueue 0 0).flatMap NetPackage.messages)).getLast?,
        LastFits ((admitted (4096 * n) theQueue 0 0).length = theQueue.length) x)
    ⟨fun h => ⟨h.1, h.2.1, h.2.2⟩, fun h => ⟨h.fits, h.straight, h.last⟩⟩

/-- What a batch that is sendable leaves in the buffers are the frames of its packages. -/
theorem packaging_frames {fuel : Nat} {m : Mem} {r : Packed} (hn : 0 < n)
    (hr : packaging fuel .identity m (sendFrames base n) theQueue = .ok r) (hq : Sendable n theQueue) :
    (∀ p ∈ theQueue.take r.count, FitsHead p ∧ p.Sized) ∧ ∃ f v, f < n ∧ r.frames = framesAt base n f v ∧
      r.nFrameCount = f + 1 ∧ read r.mem base (4096 * f + v) = streamBytes ((theQueue.take r.count).flatMap NetPackage.framed) := by
  obtain ⟨c₁, hrun, hcount, c₂, hc₂, hmem, hframes, hused⟩ := packaging_run hn hr
  have hat : At base n ⟨m, framesAt base n 0 0, base, 0, 0⟩ 0 0 := at_framesAt hn (by omega) rfl rfl
  have hgs : ∀ g ∈ (admitted (4096 * n) theQueue 0 0).flatMap NetPackage.messages, ∃ p : NetPackage, g ∈ p.messages :=
    fun g hg => (List.mem_flatMap.1 hg).imp fun p hp => hp.2
  have hall : ∀ p ∈ admitted (4096 * n) theQueue 0 0, FitsHead p ∧ p.Sized := fun p hp =>
    ⟨hq.fits p hp, packaging_sized hn hr p hp⟩
  obtain ⟨hat₁, hread, -⟩ := run_straight hat (add_zero base).symm hgs hq.straight hrun
  obtain ⟨s, hat₂, hmem₂, -, hs⟩ :=
    finish_at ((admitted (4096 * n) theQueue 0 0).length = theQueue.length) hat₁ (Nat.sub_le _ _)
  obtain ⟨hlast, hfull⟩ :=
    (lastFits_iff ((admitted (4096 * n) theQueue 0 0).length = theQueue.length) hat₁ hgs).1 hq.last
  rw [← hc₂] at hat₂ hmem₂
  have hend : s = wireLength ((admitted (4096 * n) theQueue 0 0).flatMap NetPackage.messages) := by
    rw [hs.2 hfull, Nat.zero_add]
  rw [hcount, take_admitted]
  refine ⟨hall, c₂.fIndex, s - 4096 * c₂.fIndex, hat₂.inRange, hframes.trans hat₂.frames, hused, ?_⟩
  rw [Nat.add_sub_cancel' hat₂.begun, hmem, hmem₂, hend, bytes_framed hall, ← image_whole ((patched_iff hq.straight).2 hlast)]
  rwa [Nat.cast_zero, add_zero] at hread

end PackageProxy

namespace SendSession

variable {p : Int} {s s' : SendSession} {fuel f w k i o m : Nat} {v v' : Nat → Nat} {a : Nat → Int}

theorem allBytes_congr (h : ∀ j < k, v j = v' j) : allBytes a v k = allBytes a v' k :=
  List.flatMap_congr fun j hj => by rw [h j (List.mem_range.1 hj)]

/-- The buffers lie one behind the other: full ones and one under way. -/
theorem allBytes_full (p : Int) (f w : Nat) :
    allBytes (fun j => p + PERIOPOSTSIZE * (j : Int)) (fun j => if j < f then 4096 else w) (f + 1) = span p (4096 * f + w) := by
  have hfull : ∀ j ≤ f, allBytes (fun j => p + PERIOPOSTSIZE * (j : Int)) (fun j => if j < f then 4096 else w) j = span p (4096 * j) := by
    intro j
    induction j with
    | zero => exact fun _ => rfl
    | succ j ih =>
      intro hj
      rw [allBytes_succ, bytesUpTo, ih (Nat.le_of_succ_le hj), if_pos (Nat.lt_of_succ_le hj), Nat.mul_succ, span_add]
      congr 2
  rw [allBytes_succ, bytesUpTo, hfull f le_rfl, if_neg (lt_irrefl f), span_add]
  congr 2

theorem map_span (m : Mem) (p : Int) (n : Nat) : (span p n).map m = Bytes.read m p n := by
  rw [span, Bytes.read, List.map_map]
  rfl

/-! ## What a call leaves as it was -/

theorem frame_postSend (d : PackPerData) : d.postSend.1.m_frame = d.m_frame := by
  simp only [PackPerData.postSend]
  split_ifs <;> rfl

/-- What `PostSend` of a buffer does not change. -/
structure SamePackages (s s' : SendSession) : Prop where
  mem : s'.mem = s.mem
  online : s'.m_bOnline = s.m_bOnline
  queue : s'.m_sendQueue = s.m_sendQueue

theorem SamePackages.refl (s : SendSession) : SamePackages s s := ⟨rfl, rfl, rfl⟩

theorem postCurrent_ok (hr : postCurrent s = .ok s') :
    ∃ d, s.m_SendBuf[s.m_wPostIndex]? = some d ∧ s' = s.store s.m_wPostIndex d.postSend := by
  rw [postCurrent] at hr
  cases hd : s.m_SendBuf[s.m_wPostIndex]? with
  | none =>
    rw [hd] at hr
    cases hr
  | some d =>
    rw [hd] at hr
    exact ⟨d, rfl, (Except.ok.inj hr).symm⟩

theorem postCurrent_same (hr : postCurrent s = .ok s') : SamePackages s s' := by
  obtain ⟨d, -, rfl⟩ := postCurrent_ok hr
  exact ⟨rfl, rfl, rfl⟩

theorem postCurrent_frames (hr : postCurrent s = .ok s') (j : Nat) :
    (s'.m_SendBuf[j]?).map (·.m_frame) = (s.m_SendBuf[j]?).map (·.m_frame) := by
  obtain ⟨d, hd, rfl⟩ := postCurrent_ok hr
  simp only [store, List.getElem?_set]
  split_ifs with hj hlt
  · rw [← hj, hd]
    exact congrArg some (frame_postSend d)
  · exact absurd (List.getElem?_eq_some_iff.1 hd).1 hlt
  · rfl

theorem notice_same {index len : Nat} {pBuf : Int} (hr : s.noticeComplateSend index pBuf len = .ok s') : SamePackages s s' := by
  rw [noticeComplateSend] at hr
  cases hd : s.m_SendBuf[index]? with
  | none =>
    rw [hd] at hr
    cases hr
    exact .refl s
  | some d =>
    rw [hd] at hr
    dsimp only at hr
    split_ifs at hr
    · cases hr
      exact ⟨rfl, rfl, rfl⟩
    · have hsame := postCurrent_same hr
      exact ⟨hsame.mem, hsame.online, hsame.queue⟩
    · cases hr
      exact ⟨rfl, rfl, rfl⟩

/-! ## A batch -/

/-- `PostSend` has something to pack. -/
def Due (s : SendSession) : Prop := s.m_bOnline = true ∧ s.m_finishW = 1 ∧ s.m_sendQueue ≠ []

instance (s : SendSession) : Decidable s.Due := inferInstanceAs (Decidable (_ ∧ _))

/-- A batch that is sendable goes out as the frames of its packages. -/
theorem postSend_batch (hp : 0 < p) (hs : Idle (fun j => p + PERIOPOSTSIZE * (j : Int)) 2 s) (hclear : ¬FillsFrame .identity s)
    (hdue : s.Due) (hq : PackageProxy.Sendable 2 s.m_sendQueue) (hrun : s.postSend fuel .identity = .ok s') :
    s'.m_bOnline = s.m_bOnline ∧ ∃ count, s'.m_sendQueue = s.m_sendQueue.drop count ∧
      (∀ q ∈ s.m_sendQueue.take count, PackageProxy.FitsHead q ∧ q.Sized) ∧
      ((count = 0 ∧ Idle (fun j => p + PERIOPOSTSIZE * (j : Int)) 2 s') ∨
        ∃ v k, (∀ j < k, 0 < v j) ∧ Sending (fun j => p + PERIOPOSTSIZE * (j : Int)) 2 v k s' 0 0 ∧
          (allBytes (fun j => p + PERIOPOSTSIZE * (j : Int)) v k).map s'.mem =
            streamBytes ((s.m_sendQueue.take count).flatMap NetPackage.framed)) := by
  have hspec := postSend_spec hp hs hclear hrun
  have hdue : s.m_bOnline = true ∧ s.m_finishW = 1 ∧ s.m_sendQueue ≠ [] := hdue
  rw [postSend, if_pos hdue] at hrun
  obtain ⟨r, hr, hrun⟩ := bind_eq_ok.1 hrun
  rw [frames_resetBuffers hs.bufs] at hr
  obtain ⟨hall, f, w, hf, hframes, hcount, hread⟩ := PackageProxy.packaging_frames (by decide) hr hq
  rw [hframes] at hrun
  obtain ⟨-, hvalid⟩ := buffers_packed (f := f) (v := w) (m := r.mem) hs.bufs rfl
  split_ifs at hrun with hout
  · have hsame := postCurrent_same hrun
    refine ⟨hsame.online, r.count, hsame.queue, hall, .inr ?_⟩
    obtain ⟨d, -, hs'⟩ := postCurrent_ok hrun
    rcases hspec with hidle | ⟨v, k, hv, hsend⟩
    · have hfin := hidle.finished
      rw [hs'] at hfin
      cases hfin
    · have hk : k = f + 1 := by
        have hc := hsend.count
        rw [hs'] at hc
        have hc : r.nFrameCount % 16 = k := hc
        omega
      refine ⟨v, k, hv, hsend, ?_⟩
      have hlen : ∀ j < k, v j = if j < f then 4096 else w := by
        intro j hj
        obtain ⟨e, he⟩ := hsend.bufs.read (i := j) (by omega)
        have hkeep := postCurrent_frames hrun j
        rw [he] at hkeep
        obtain ⟨e₀, he₀, hframe⟩ := Option.map_eq_some_iff.1 hkeep.symm
        have hframe : e₀.m_frame = e.m_frame := hframe
        have hl := hsend.valid j e (Nat.zero_le _) hj he
        rw [← hl, ← hframe, hvalid j e₀ he₀]
        split_ifs <;> omega
      rw [allBytes_congr hlen, hk, allBytes_full, map_span, hsame.mem]
      exact hread
  · cases hrun
    refine ⟨rfl, 0, rfl, ?_, .inl ⟨rfl, ?_⟩⟩
    · exact List.forall_mem_nil _
    · rcases hspec with hidle | ⟨v, k, -, hsend⟩
      · exact hidle
      · have hw := hsend.writing
        have hfin : s.m_finishW = 0 := hw
        rw [hs.finished] at hfin
        cases hfin

end SendSession

/-! ## A longer stream -/

theorem PackPerData.whole_append {ext : Nat} {fs more : List Framed} (h : ext ≤ (streamBytes fs).length) :
    whole ext (fs ++ more) = whole ext fs := by
  induction fs generalizing ext with
  | nil =>
    have hzero : ext = 0 := Nat.le_zero.1 h
    subst hzero
    cases more <;> rfl
  | cons f fs ih =>
    rw [streamBytes_cons, List.length_append, Framed.length_bytes] at h
    rw [List.cons_append, whole, whole, ih (by omega)]

theorem Arrival.of_append {e t : Nat} {todo more : List Framed} (h : e + t ≤ (streamBytes todo).length) :
    of e t (todo ++ more) = of e t todo := by
  have hbuffer : ∀ joined T fs, T ≤ (streamBytes fs).length → ofBuffer joined T (fs ++ more) = ofBuffer joined T fs := by
    intro joined T fs hT
    cases fs with
    | nil =>
      have hzero : T = 0 := Nat.le_zero.1 hT
      subst hzero
      cases more with
      | nil => rfl
      | cons f more =>
        have := f.le_length
        rw [List.nil_append, ofBuffer, ofBuffer, if_pos (by omega)]
    | cons f fs =>
      rw [streamBytes_cons, List.length_append, Framed.length_bytes] at hT
      rw [List.cons_append, ofBuffer, ofBuffer, PackPerData.whole_append (by omega)]
  by_cases he : e = 0
  · subst he
    rw [of_zero, of_zero, hbuffer _ _ _ (by omega)]
  · cases todo with
    | nil =>
      have : e + t ≤ 0 := h
      omega
    | cons f rest =>
      rw [streamBytes_cons, List.length_append, Framed.length_bytes] at h
      rw [List.cons_append, of_pos _ _ _ he, of_pos _ _ _ he, hbuffer _ _ _ (by omega)]

section

variable {exact : Prop} {base : Int} {h : RecvHandle} {s : RecvSession} {frames todo fs : List Framed} {packages ps more : List NetPackage}
  {gs : List FrameGroup} {k q e n : Nat} {pExtend : Option Nat} {r r₀ : Feeding}

theorem RecvSession.arrival_append (hn : s.leftOver + (s.partIn + n) ≤ (streamBytes todo).length) :
    s.arrival (todo ++ fs) n = s.arrival todo n :=
  Arrival.of_append hn

/-- What the receiver provides for is decided by the bytes that come. -/
theorem Delivers.longer (hd : Delivers base h s todo n) (hn : s.leftOver + (s.partIn + n) ≤ (streamBytes todo).length) :
    Delivers base h s (todo ++ fs) n := by
  obtain ⟨hclean, hsorted, horder⟩ := hd
  have harr : s.arrival (todo ++ fs) n = s.arrival todo n := RecvSession.arrival_append hn
  have hnew : s.newFrames base (todo ++ fs) n = s.newFrames base todo n := by rw [RecvSession.newFrames, harr, RecvSession.newFrames]
  have hnext : s.nextFrames base (todo ++ fs) n = s.nextFrames base todo n := by
    rw [RecvSession.nextFrames, harr, hnew, RecvSession.nextFrames]
  have hgoes : s.GoesOn base (todo ++ fs) n ↔ s.GoesOn base todo n := by
    rw [RecvSession.GoesOn, harr, hnext, RecvSession.GoesOn]
  have hhead : 0 < s.leftOver → (todo ++ fs).head? = todo.head? := by
    intro hpos
    cases todo with
    | nil =>
      have : s.leftOver + (s.partIn + n) ≤ 0 := hn
      omega
    | cons f rest => rfl
  refine ⟨⟨fun hpos => ?_, ?_, ?_, fun hpos => ?_, ?_, ?_⟩, ?_, ?_⟩
  · rw [hhead hpos]
    exact hclean.joins hpos
  · rw [harr]
    exact hclean.enough
  · rw [harr]
    exact hclean.unset
  · rw [hhead hpos]
    exact hclean.apart hpos
  · rw [hgoes, harr, hnext]
    exact hclean.left
  · rw [hgoes, hnext]
    exact hclean.ring
  · rw [RecvSession.Sorted, hgoes, hnext]
    exact hsorted
  · rw [RecvSession.InOrder, harr, hnext]
    exact horder

theorem Arrived.longer {m : Mem} {bufs : List PackPerData} {t : Nat} (ha : Arrived base m bufs k pExtend e t todo) :
    Arrived base m bufs k pExtend e t (todo ++ fs) where
  buffers := ha.buffers
  lt := ha.lt
  lt_ext := ha.lt_ext
  prev := ha.prev
  fits := ha.fits
  enough := by
    rw [streamBytes_append, List.length_append]
    exact Nat.le_trans ha.enough (Nat.le_add_right ..)
  lies := by
    have henough := ha.enough
    rw [streamBytes_append, List.drop_append_of_le_length (by omega),
      List.take_append_of_le_length (by rw [List.length_drop]; omega)]
    exact ha.lies
  zero := ha.zero
  left hpos := by
    obtain ⟨j, d, f, rest, p, hext, hne, hd, htodo, hleft⟩ := ha.left hpos
    exact ⟨j, d, f, rest ++ fs, p, hext, hne, hd, by rw [htodo, List.cons_append], hleft⟩

theorem Listening.longer (hl : Listening base s k q pExtend e todo) : Listening base s k q pExtend e (todo ++ fs) where
  online := hl.online
  place := hl.place
  arrived := hl.arrived.longer
  posted := by
    obtain ⟨len, hposted, hcase⟩ := hl.posted
    refine ⟨len, hposted, hcase.imp_right ?_⟩
    rintro ⟨hq, he, f, rest, htodo, hrest⟩
    exact ⟨hq, he, f, rest ++ fs, by rw [htodo, List.cons_append], hrest⟩
  left_le hpos := by
    obtain ⟨f, rest, htodo, hleft⟩ := hl.left_le hpos
    exact ⟨f, rest ++ fs, by rw [htodo, List.cons_append], hleft⟩
  ring := hl.ring
  ne := hl.ne

namespace Feeding

theorem Resting.longer (hr : Resting exact base frames r k q pExtend e todo gs ps) (hfs : fs.map Framed.msg = more.flatMap NetPackage.messages)
    (hsized : ∀ p ∈ more, p.Sized) : Resting exact base (frames ++ fs) r k q pExtend e (todo ++ fs) gs (ps ++ more) where
  ready := {
    listening := hr.ready.listening.longer
    waiting := hr.ready.waiting
    incomplete := hr.ready.incomplete
    stream := by rw [List.flatMap_append, ← List.append_assoc, hr.ready.stream, List.map_append, hfs]
    sized := by
      intro p hp
      rw [← List.append_assoc, List.mem_append] at hp
      exact hp.elim (hr.ready.sized p) (hsized p)
    free := hr.ready.free }
  idle := hr.idle
  taken := by
    obtain ⟨taken, hframes, hreceived⟩ := hr.taken
    exact ⟨taken, by rw [hframes, List.append_assoc], hreceived⟩

theorem Served.longer (hr : Served base frames packages r k q pExtend e todo gs ps)
    (hfs : fs.map Framed.msg = more.flatMap NetPackage.messages) (hsized : ∀ p ∈ more, p.Sized) :
    Served base (frames ++ fs) (packages ++ more) r k q pExtend e (todo ++ fs) gs (ps ++ more) where
  resting := hr.resting.longer hfs hsized
  queue := by
    obtain ⟨done, hpkgs, hqueue⟩ := hr.queue
    exact ⟨done, by rw [hpkgs, List.append_assoc, List.append_assoc], hqueue⟩

/-- A session that has received a part of a stream goes on with a longer one. -/
theorem Serves.longer (hr : Serves base h frames packages r) (hfs : fs.map Framed.msg = more.flatMap NetPackage.messages)
    (hsized : ∀ p ∈ more, p.Sized) (hstamps : ((packages ++ more).map NetPackage.stamp).Nodup) :
    Serves base h (frames ++ fs) (packages ++ more) r := by
  rcases hr with ⟨k, q, pExtend, e, todo, gs, ps, hr⟩ | ⟨r₀, n, k, q, pExtend, e, todo, gs, ps, hr, ha⟩
  · exact .inl ⟨k, q, pExtend, e, todo ++ fs, gs, ps ++ more, hr.longer hfs hsized⟩
  · have hr' := hr.longer hfs hsized
    have hn : r₀.session.leftOver + (r₀.session.partIn + n) ≤ (streamBytes todo).length := by
      rw [hr.resting.ready.leftOver, hr.resting.ready.partIn]
      have := ha.enough
      omega
    obtain ⟨done, hpkgs, -⟩ := hr'.queue
    rw [hpkgs, List.map_append] at hstamps
    have hbytes : ((streamBytes (todo ++ fs)).drop (e + q)).take n = ((streamBytes todo).drop (e + q)).take n := by
      have := ha.enough
      rw [streamBytes_append, List.drop_append_of_le_length (by omega),
        List.take_append_of_le_length (by rw [List.length_drop]; omega)]
    refine .inr ⟨r₀, n, k, q, pExtend, e, todo ++ fs, gs, ps ++ more, hr', ⟨hr'.resting, ?_, ha.received, ha.pos, ha.len, ?_, ?_⟩⟩
    · rw [hbytes]
      exact ha.session
    · rw [streamBytes_append, List.length_append]
      exact Nat.le_trans ha.enough (Nat.le_add_right ..)
    · exact ⟨ha.ok.1.longer hn, hr'.resting.ready.keysApart (List.Nodup.of_append_right hstamps)⟩

end Feeding

end
