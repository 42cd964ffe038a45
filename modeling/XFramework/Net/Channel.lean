/-
Two sessions and the network between them.

One session is given packages, packs them in `PostSend` and has the bytes
taken by the network in pieces of any size; the network brings them to the
other session in pieces of any size, and `ParseData` works them off. The steps
come in any order. As long as no batch is packed that the wire format does not
hold (`Sendable`) or that ends where a frame ends (`FillsFrame`), and the
receiver provides for the completions (`Delivers`), the packages handed out
are those given, in their order, each once (`intact_run`).

The invariant says where the bytes of the packed packages are: received, on
the wire, or in the send buffers behind what was reported (`Inv`).
-/
import XFramework.Net.ChannelFrames

open Bytes Fallible

/-- A session that sends, the packages it was given, the bytes on their way, and a session that receives. -/
structure Channel where
  sender : SendSession
  sent : List NetPackage
  wire : List UInt8
  receiver : Feeding

namespace Channel

/-- A call or a report of the sender; bytes arrive; `ParseData` is called. -/
inductive Action
  | sender (x : SendSession.Action)
  | arrive (n : Nat)
  | parse (now : Int)

/-- What `SendNetPackage` takes. -/
def given (s : SendSession) : SendSession.Action → List NetPackage
  | .send p => if s.m_bOnline then [p] else []
  | .postSend => []
  | .notice _ => []

/-- The bytes a report is about. -/
def reported (s : SendSession) : SendSession.Action → List UInt8
  | .send _ => []
  | .postSend => []
  | .notice len => (s.posted.head?.map fun r => read s.mem r.pStart len).getD []

def step (fuel : Nat) (h : RecvHandle) (c : Channel) : Action → Except (PackError ⊕ RecvError) Channel
  | .sender x => do
    let s ← (c.sender.step fuel .identity x).mapError .inl
    .ok ⟨s, c.sent ++ given c.sender x, c.wire ++ reported c.sender x, c.receiver⟩
  | .arrive n =>
    if c.wire.length < n then .error (.inr .waiting)
    else do
      let s ← (c.receiver.session.complete (c.wire.take n)).mapError .inr
      .ok { c with wire := c.wire.drop n, receiver := ⟨s, c.receiver.received + n⟩ }
  | .parse now => do
    let s ← (c.receiver.session.parseData h now).mapError .inr
    .ok { c with receiver := ⟨s, c.receiver.received⟩ }

/-- The packages that have left the queue. -/
def packed (c : Channel) : List NetPackage := c.sent.take (c.sent.length - c.sender.m_sendQueue.length)

/-- Their frames. -/
def stream (c : Channel) : List Framed := c.packed.flatMap NetPackage.framed

/-- The steps of two sessions whose batches the wire format holds and whose completions are provided for.
Each package has a timestamp of its own. -/
def Allowed (base : Int) (h : RecvHandle) (c : Channel) : Action → Prop
  | .sender (.send p) => p.stamp ∉ c.sent.map NetPackage.stamp
  | .sender .postSend => c.sender.Due → PackageProxy.Sendable 2 c.sender.m_sendQueue ∧ ¬c.sender.FillsFrame .identity
  | .sender (.notice len) => c.sender.Allowed (.notice len)
  | .arrive n => 0 < n ∧ n ≤ c.wire.length ∧ (∃ req ∈ c.receiver.session.posted.head?, n ≤ req.len) ∧
    Delivers base h c.receiver.session (c.receiver.todo c.stream) n
  | .parse _ => True

instance : DecidablePred (Allowed base h c)
  | .sender (.send p) => inferInstanceAs (Decidable (p.stamp ∉ c.sent.map NetPackage.stamp))
  | .sender .postSend => inferInstanceAs (Decidable (_ → PackageProxy.Sendable 2 c.sender.m_sendQueue ∧ ¬_))
  | .sender (.notice len) => inferInstanceAs (Decidable (c.sender.Allowed (.notice len)))
  | .arrive n => inferInstanceAs (Decidable (0 < n ∧ n ≤ c.wire.length ∧ (∃ req ∈ c.receiver.session.posted.head?, n ≤ req.len) ∧ _))
  | .parse _ => isTrue trivial

/-- Everything given to the sender has come as far as `ParseData`. -/
def Drained (c : Channel) : Prop :=
  c.sender.m_sendQueue = [] ∧ c.sender.m_finishW = 1 ∧ c.wire = [] ∧ c.receiver.session.m_perIoDatas = []

instance (c : Channel) : Decidable c.Drained := inferInstanceAs (Decidable (_ ∧ _))

/-- What is seen of a channel. -/
structure Intact (c : Channel) : Prop where
  inOrder : c.receiver.session.m_recvQueue <+: c.sent.filterMap NetPackage.delivered
  sending : c.sender.m_finishW = 1 ∨ ∃ r, c.sender.posted = [r] ∧ 0 < r.len
  listening : c.receiver.session.m_perIoDatas = [] → c.receiver.session.posted.length = 1
  all : c.Drained → c.receiver.session.m_recvQueue = c.sent.filterMap NetPackage.delivered

variable {fuel n : Nat} {base p : Int} {h : RecvHandle} {c c' : Channel} {s s' : SendSession} {rest : List UInt8} {a : Action}

/-! ## The sender -/

/-- The bytes that are packed and not reported yet are `rest`. -/
def Going (p : Int) (s : SendSession) (rest : List UInt8) : Prop :=
  (SendSession.Idle (fun j => p + PERIOPOSTSIZE * (j : Int)) 2 s ∧ rest = []) ∨
    ∃ v k i o l, (∀ j < k, 0 < v j) ∧ SendSession.Sending (fun j => p + PERIOPOSTSIZE * (j : Int)) 2 v k s i o ∧
      SendSession.allBytes (fun j => p + PERIOPOSTSIZE * (j : Int)) v k =
        SendSession.bytesUpTo (fun j => p + PERIOPOSTSIZE * (j : Int)) v i o ++ l ∧ rest = l.map s.mem

theorem Going.send (q : NetPackage) (hs : Going p s rest) : Going p (s.sendNetPackage q) rest := by
  rw [SendSession.sendNetPackage]
  split_ifs
  · rcases hs with ⟨hidle, hrest⟩ | ⟨v, k, i, o, l, hv, hs, hl, hrest⟩
    · exact .inl ⟨⟨hidle.bufs.congr rfl, hidle.finished, hidle.request⟩, hrest⟩
    · exact .inr ⟨v, k, i, o, l, hv, ⟨hs.bufs.congr rfl, hs.within, hs.valid, hs.writing, hs.current, hs.count, hs.inRange,
        hs.rest, hs.request⟩, hl, hrest⟩
  · exact hs

/-- A report is about the next bytes. -/
theorem Going.notice {len : Nat} (hp : 0 < p) (hs : Going p s rest) (ha : s.Allowed (.notice len))
    (hrun : s.step fuel .identity (.notice len) = .ok s') :
    s.SamePackages s' ∧ ∃ rest', rest = reported s (.notice len) ++ rest' ∧ Going p s' rest' := by
  obtain ⟨r, hr, hpos, hle⟩ := ha
  rcases hs with ⟨hidle, -⟩ | ⟨v, k, i, o, l, hv, hs, hl, rfl⟩
  · rw [hidle.request] at hr
    cases hr
  · have hreq := hs.request
    have hrest := hs.rest
    rw [hreq] at hr
    cases hr
    have hle : len ≤ v i - o := hle
    simp only [SendSession.step, hreq] at hrun
    have hsame := SendSession.notice_same hrun
    obtain ⟨s₁, hnotice, hnext⟩ := SendSession.notice_spec hs (by decide)
      (fun j _ => by simp only [PERIOPOSTSIZE, Nat.cast_ofNat]; omega) hv hpos (show o + len ≤ v i by omega)
    cases hrun.symm.trans hnotice
    obtain ⟨l₀, hsplit⟩ := SendSession.allBytes_split (a := fun j => p + PERIOPOSTSIZE * (j : Int)) hs.inRange hrest.le
    have hl₁ : l = SendSession.span (p + PERIOPOSTSIZE * (i : Int) + o) len ++
        (SendSession.span (p + PERIOPOSTSIZE * (i : Int) + o + len) (v i - o - len) ++ l₀) := by
      rw [hl, List.append_assoc, List.append_cancel_left_eq] at hsplit
      rw [hsplit, ← List.append_assoc, ← SendSession.span_add, Nat.add_sub_cancel' hle]
    generalize SendSession.span (p + PERIOPOSTSIZE * (i : Int) + o + len) (v i - o - len) ++ l₀ = l' at hl₁
    have hl' : SendSession.allBytes (fun j => p + PERIOPOSTSIZE * (j : Int)) v k =
        SendSession.bytesUpTo (fun j => p + PERIOPOSTSIZE * (j : Int)) v i (o + len) ++ l' := by
      rw [hl, hl₁, ← List.append_assoc, SendSession.bytesUpTo_add]
    refine ⟨⟨hsame.mem, hsame.online, hsame.queue⟩, l'.map s.mem, ?_, ?_⟩
    · rw [hl₁, List.map_append, SendSession.map_span, reported, hreq]
      rfl
    · have hmem : s'.mem = s.mem := hsame.mem
      rw [← hmem]
      rcases hnext with ⟨-, hs'⟩ | ⟨hfull, -, hs'⟩ | ⟨hfull, hlast, hidle⟩
      · exact .inr ⟨v, k, i, o + len, l', hv, hs', hl', rfl⟩
      · refine .inr ⟨v, k, i + 1, 0, l', hv, hs', ?_, rfl⟩
        rw [SendSession.bytesUpTo_zero, SendSession.allBytes_succ, ← hfull]
        exact hl'
      · refine .inl ⟨hidle, ?_⟩
        rw [← hlast, SendSession.allBytes_succ, ← hfull, List.self_eq_append_right] at hl'
        rw [hl']
        rfl

/-! ## The receiver -/

theorem Serves.outcome {frames : List Framed} {packages : List NetPackage} {r : Feeding} (hr : r.Serves base h frames packages) :
    r.session.m_recvQueue <+: packages.filterMap NetPackage.delivered ∧
      (r.session.m_perIoDatas = [] → r.session.posted.length = 1 ∧ (r.received = (streamBytes frames).length →
        r.session.m_recvQueue = packages.filterMap NetPackage.delivered)) := by
  rcases hr with ⟨k, q, pExtend, e, todo, gs, ps, hr⟩ | ⟨r₀, n, k, q, pExtend, e, todo, gs, ps, hr, ha⟩
  · obtain ⟨done, hpkgs, hqueue⟩ := hr.queue
    obtain ⟨len, hposted, -⟩ := hr.resting.ready.listening.posted
    obtain ⟨taken, htodo, hreceived⟩ := hr.resting.taken
    rw [hpkgs, List.filterMap_append, ← hqueue]
    refine ⟨List.prefix_append .., fun _ => ⟨by rw [hposted]; rfl, fun hall => ?_⟩⟩
    rw [hr.resting.ready.none_left, List.append_nil]
    rw [htodo, streamBytes_append, List.length_append] at hall
    omega
  · obtain ⟨done, hpkgs, hqueue⟩ := hr.queue
    rw [ha.session, hpkgs, List.filterMap_append, ← hqueue]
    exact ⟨List.prefix_append .., fun hnone => absurd hnone (List.cons_ne_nil _ _)⟩

/-! ## The invariant -/

/-- The bytes of the packed packages are received, on the wire, or `rest`. -/
structure Inv (base p : Int) (h : RecvHandle) (c : Channel) (rest : List UInt8) : Prop where
  going : Going p c.sender rest
  queued : c.sent = c.packed ++ c.sender.m_sendQueue
  fits : ∀ q ∈ c.packed, PackageProxy.FitsHead q ∧ q.Sized
  stamps : (c.sent.map NetPackage.stamp).Nodup
  bytes : ∃ taken, streamBytes c.stream = taken ++ (c.wire ++ rest) ∧ taken.length = c.receiver.received
  serves : c.receiver.Serves base h c.stream c.packed

theorem packed_eq {ps : List NetPackage} (hs : c.sent = ps ++ c.sender.m_sendQueue) : c.packed = ps := by
  rw [packed, hs, List.length_append, Nat.add_sub_cancel, List.take_left]

/-- A step that packs nothing. -/
theorem Inv.keep {rest' : List UInt8} (hi : Inv base p h c rest) (hg : Going p c'.sender rest')
    (hqueue : c'.sent = c.packed ++ c'.sender.m_sendQueue) (hstamps : (c'.sent.map NetPackage.stamp).Nodup)
    (hwire : c.wire ++ rest = c'.wire ++ rest') (hreceiver : c'.receiver = c.receiver) : Inv base p h c' rest' := by
  have hpacked : c'.packed = c.packed := packed_eq hqueue
  have hstream : c'.stream = c.stream := congrArg (List.flatMap NetPackage.framed) hpacked
  obtain ⟨taken, hbytes, hlen⟩ := hi.bytes
  refine ⟨hg, by rw [hpacked, hqueue], by rw [hpacked]; exact hi.fits, hstamps, ⟨taken, ?_, ?_⟩, ?_⟩
  · rw [hstream, hbytes, hwire]
  · rw [hlen, hreceiver]
  · rw [hstream, hpacked, hreceiver]
    exact hi.serves

theorem Inv.send {q : NetPackage} (hi : Inv base p h c rest) (hq : q.stamp ∉ c.sent.map NetPackage.stamp) :
    Inv base p h ⟨c.sender.sendNetPackage q, c.sent ++ given c.sender (.send q), c.wire ++ [], c.receiver⟩ rest := by
  refine hi.keep (hi.going.send q) ?_ ?_ (by rw [List.append_nil]) rfl
  · simp only [given, SendSession.sendNetPackage]
    split_ifs
    · rw [← List.append_assoc, ← hi.queued]
    · rw [List.append_nil, ← hi.queued]
  · simp only [given]
    split_ifs
    · rw [List.map_append, List.nodup_append]
      refine ⟨hi.stamps, by simp, ?_⟩
      rintro a ha b hb rfl
      rw [List.map_singleton, List.mem_singleton] at hb
      exact hq (hb ▸ ha)
    · rw [List.append_nil]
      exact hi.stamps

/-- A batch is added to the stream. -/
theorem Inv.postSend (hp : 0 < p) (hi : Inv base p h c rest) (ha : Allowed base h c (.sender .postSend))
    (hrun : c.sender.step fuel .identity .postSend = .ok s') :
    ∃ rest', Inv base p h ⟨s', c.sent ++ [], c.wire ++ [], c.receiver⟩ rest' := by
  by_cases hdue : c.sender.Due
  · obtain ⟨hsendable, hclear⟩ := ha hdue
    have hidle : SendSession.Idle (fun j => p + PERIOPOSTSIZE * (j : Int)) 2 c.sender ∧ rest = [] := by
      rcases hi.going with hidle | ⟨v, k, i, o, l, -, hs, -⟩
      · exact hidle
      · have hbusy := hs.writing
        rw [hdue.2.1] at hbusy
        cases hbusy
    obtain ⟨hidle, rfl⟩ := hidle
    obtain ⟨-, count, hqueue, hfits, hbatch⟩ := SendSession.postSend_batch hp hidle hclear hdue hsendable hrun
    obtain ⟨taken, hbytes, hlen⟩ := hi.bytes
    rcases hbatch with ⟨rfl, hidle'⟩ | ⟨v, k, hv, hs, hall⟩
    · exact ⟨[], hi.keep (.inl ⟨hidle', rfl⟩) (by rw [List.append_nil, hqueue]; exact hi.queued) (by rw [List.append_nil]; exact hi.stamps)
        (by simp only [List.append_nil]) rfl⟩
    · have hsent : c.sent ++ [] = (c.packed ++ c.sender.m_sendQueue.take count) ++ s'.m_sendQueue := by
        rw [List.append_nil, hqueue, List.append_assoc, List.take_append_drop]
        exact hi.queued
      have hpacked : packed ⟨s', c.sent ++ [], c.wire ++ [], c.receiver⟩ = c.packed ++ c.sender.m_sendQueue.take count := packed_eq hsent
      have hstream : stream ⟨s', c.sent ++ [], c.wire ++ [], c.receiver⟩ =
          c.stream ++ (c.sender.m_sendQueue.take count).flatMap NetPackage.framed := by
        rw [stream, hpacked, List.flatMap_append, stream]
      have hstamps : ((c.packed ++ c.sender.m_sendQueue.take count).map NetPackage.stamp).Nodup := by
        have hnodup := hi.stamps
        rw [← List.append_nil c.sent, hsent, List.map_append] at hnodup
        exact List.Nodup.of_append_left hnodup
      refine ⟨_, .inr ⟨v, k, 0, 0, _, hv, hs, by rw [SendSession.bytesUpTo_zero]; exact (List.nil_append _).symm, rfl⟩, by rw [hpacked]; exact hsent, ?_,
        by rw [List.append_nil]; exact hi.stamps, ⟨taken, ?_, hlen⟩, ?_⟩
      · rw [hpacked]
        exact fun q hq => (List.mem_append.1 hq).elim (hi.fits q) (hfits q)
      · rw [hstream, streamBytes_append, hbytes, ← hall, List.append_nil, List.append_assoc]
      · rw [hstream, hpacked]
        exact hi.serves.longer (PackageProxy.msgs_framed hfits) (fun q hq => (hfits q hq).2) hstamps
  · have hrun : c.sender.postSend fuel .identity = .ok s' := hrun
    have hdue : ¬(c.sender.m_bOnline = true ∧ c.sender.m_finishW = 1 ∧ c.sender.m_sendQueue ≠ []) := hdue
    rw [SendSession.postSend, if_neg hdue] at hrun
    cases hrun
    exact ⟨rest, hi.keep hi.going (by rw [List.append_nil]; exact hi.queued) (by rw [List.append_nil]; exact hi.stamps)
      (by simp only [List.append_nil]) rfl⟩

theorem Inv.notice {len : Nat} (hp : 0 < p) (hi : Inv base p h c rest) (ha : c.sender.Allowed (.notice len))
    (hrun : c.sender.step fuel .identity (.notice len) = .ok s') :
    ∃ rest', Inv base p h ⟨s', c.sent ++ [], c.wire ++ reported c.sender (.notice len), c.receiver⟩ rest' := by
  obtain ⟨hsame, rest', hrest, hg⟩ := hi.going.notice hp ha hrun
  refine ⟨rest', hi.keep hg ?_ (by rw [List.append_nil]; exact hi.stamps) (by rw [hrest, List.append_assoc]) rfl⟩
  rw [List.append_nil, hsame.queue]
  exact hi.queued

/-- Bytes that arrive are the next ones of the stream. -/
theorem Inv.arrive {s₁ : RecvSession} (hbase : 0 < base) (hsorts : h.Sorts) (hworks : h.Works) (hi : Inv base p h c rest)
    (ha : Allowed base h c (.arrive n)) (hrun : c.receiver.session.complete (c.wire.take n) = .ok s₁) :
    Inv base p h { c with wire := c.wire.drop n, receiver := ⟨s₁, c.receiver.received + n⟩ } rest := by
  obtain ⟨hpos, hn, hreq, hd⟩ := ha
  obtain ⟨taken, hbytes, hlen⟩ := hi.bytes
  have hstamps : (c.packed.map NetPackage.stamp).Nodup := by
    have hnodup := hi.stamps
    rw [hi.queued, List.map_append] at hnodup
    exact List.Nodup.of_append_left hnodup
  have henough : c.receiver.received + n ≤ (streamBytes c.stream).length := by
    rw [hbytes, List.length_append, List.length_append, hlen]
    omega
  have hnext : ((streamBytes c.stream).drop c.receiver.received).take n = c.wire.take n := by
    rw [hbytes, ← hlen, List.drop_left, List.take_append_of_le_length hn]
  obtain ⟨r', hstep, hr'⟩ := hi.serves.step hbase hsorts hworks hstamps
    (show Feeding.Allowed base h c.stream c.receiver (.arrive n) from ⟨⟨hpos, henough, hreq⟩, hd⟩)
  rw [Feeding.step, if_neg (Nat.not_lt.2 henough), hnext, hrun] at hstep
  cases hstep
  refine ⟨hi.going, hi.queued, hi.fits, hi.stamps, ⟨taken ++ c.wire.take n, ?_, ?_⟩, hr'⟩
  · rw [show stream { c with wire := c.wire.drop n, receiver := ⟨s₁, c.receiver.received + n⟩ } = c.stream from rfl, hbytes,
      List.append_assoc, ← List.append_assoc (c.wire.take n), List.take_append_drop]
  · rw [List.length_append, hlen, List.length_take_of_le hn]

theorem Inv.parse {now : Int} {s₁ : RecvSession} (hbase : 0 < base) (hsorts : h.Sorts) (hworks : h.Works) (hi : Inv base p h c rest)
    (hrun : c.receiver.session.parseData h now = .ok s₁) :
    Inv base p h { c with receiver := ⟨s₁, c.receiver.received⟩ } rest := by
  obtain ⟨taken, hbytes, hlen⟩ := hi.bytes
  have hstamps : (c.packed.map NetPackage.stamp).Nodup := by
    have hnodup := hi.stamps
    rw [hi.queued, List.map_append] at hnodup
    exact List.Nodup.of_append_left hnodup
  obtain ⟨r', hstep, hr'⟩ := hi.serves.step hbase hsorts hworks hstamps
    (show Feeding.Allowed base h c.stream c.receiver (.parse now) from trivial)
  rw [Feeding.step, hrun] at hstep
  cases hstep
  exact ⟨hi.going, hi.queued, hi.fits, hi.stamps, ⟨taken, hbytes, hlen⟩, hr'⟩

theorem mapError_ok {ε ε' α : Type} {f : ε → ε'} {x : Except ε α} {a : α} : x.mapError f = .ok a ↔ x = .ok a := by
  cases x with
  | error e => exact iff_of_false (fun h => by cases h) fun h => by cases h
  | ok b => exact ⟨fun h => by cases h; rfl, fun h => by cases h; rfl⟩

theorem Inv.step (hp : 0 < p) (hbase : 0 < base) (hsorts : h.Sorts) (hworks : h.Works) (hi : Inv base p h c rest)
    (ha : Allowed base h c a) (hrun : Channel.step fuel h c a = .ok c') : ∃ rest', Inv base p h c' rest' := by
  cases a with
  | sender x =>
    obtain ⟨s, hs, hrun⟩ := bind_eq_ok.1 hrun
    have hs := mapError_ok.1 hs
    cases hrun
    cases x with
    | send q =>
      cases hs
      exact ⟨rest, hi.send ha⟩
    | postSend => exact hi.postSend hp ha hs
    | notice len => exact hi.notice hp ha hs
  | arrive n =>
    have ha' := ha
    obtain ⟨-, hn, -⟩ := ha'
    rw [Channel.step, if_neg (Nat.not_lt.2 hn)] at hrun
    obtain ⟨s, hs, hrun⟩ := bind_eq_ok.1 hrun
    cases hrun
    exact ⟨rest, hi.arrive hbase hsorts hworks ha (mapError_ok.1 hs)⟩
  | parse now =>
    obtain ⟨s, hs, hrun⟩ := bind_eq_ok.1 hrun
    cases hrun
    exact ⟨rest, hi.parse hbase hsorts hworks (mapError_ok.1 hs)⟩

/-! ## Runs -/

/-- A session after `Init`, and one after its first `PostRecv`. -/
def start (m : Mem) (p : Int) (s : RecvSession) : Channel where
  sender := .init m p
  sent := []
  wire := []
  receiver := ⟨s, 0⟩

theorem Inv.start {s : RecvSession} (m : Mem) (hbase : 0 < base) (hs : Feeding.Starts base s) :
    Inv base p h (Channel.start m p s) [] := by
  have hmsgs : ([] : List Framed).map Framed.msg = ([] : List NetPackage).flatMap NetPackage.messages := rfl
  obtain ⟨hrest, hempty⟩ := hs.resting hbase hmsgs
  refine ⟨.inl ⟨⟨⟨rfl, fun j d hd => ?_⟩, rfl, rfl⟩, rfl⟩, rfl, List.forall_mem_nil _, List.nodup_nil, ⟨[], rfl, rfl⟩,
    .inl ⟨_, _, _, _, _, _, _, hrest, [], rfl, hempty⟩⟩
  obtain ⟨-, rfl⟩ := SendSession.eq_of_range_map hd
  exact ⟨rfl, rfl, rfl, rfl, rfl, rfl⟩

theorem Inv.intact (hi : Inv base p h c rest) : Intact c := by
  obtain ⟨hfront, hidle⟩ := Serves.outcome hi.serves
  obtain ⟨taken, hbytes, hlen⟩ := hi.bytes
  refine ⟨?_, ?_, fun hnone => (hidle hnone).1, ?_⟩
  · rw [hi.queued, List.filterMap_append]
    exact hfront.trans (List.prefix_append ..)
  · rcases hi.going with ⟨hidle, -⟩ | ⟨v, k, i, o, l, -, hs, -⟩
    · exact .inl hidle.finished
    · exact .inr ⟨_, hs.request, Nat.sub_pos_of_lt hs.rest⟩
  · rintro ⟨hqueue, hfin, hwire, hnone⟩
    have hrest : rest = [] := by
      rcases hi.going with ⟨-, hrest⟩ | ⟨v, k, i, o, l, -, hs, -⟩
      · exact hrest
      · have hbusy := hs.writing
        rw [hfin] at hbusy
        cases hbusy
    have hall := (hidle hnone).2 (by rw [hbytes, hwire, hrest, List.append_nil, List.append_nil, hlen])
    rw [hall, hi.queued, hqueue, List.append_nil]

/-- Two packages, the second given while the first is on its way; the wire is cut within frames on both sides. -/
def twoPackages : List Action :=
  [.sender (.send (Reassembling.bytesOf 1500 1 7)), .sender .postSend, .sender (.notice 1000), .arrive 700, .parse 0,
    .sender (.send (Reassembling.bytesOf 30 2 8)), .sender (.notice 548), .arrive 324, .parse 0, .sender .postSend, .arrive 524,
    .parse 0, .sender (.notice 54), .arrive 54, .parse 0]

end Channel
