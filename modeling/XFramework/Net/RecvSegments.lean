/-
What a session makes of a whole stream (Net/SocketSession.cpp).

The stream may be cut into completions anywhere. As long as the receiver
provides for each of them (`Delivers`), nothing is thrown, a request is out
after each `ParseData`, and `m_recvQueue` holds the packages of the stream in
their order, as far as they are handed out (`received_run`). When all of the
stream was received, these are all of them.
-/
import XFramework.Net.RecvRun

open Bytes Fallible

variable {base : Int} {h : RecvHandle} {s : RecvSession} {frames todo : List Framed} {packages ps : List NetPackage}
  {gs : List FrameGroup} {k q e n : Nat} {pExtend : Option Nat} {m : Mem} {map : StdMap Int (List MsgFrame)}

/-! ## The timestamps of a stream -/

theorem newKeys_append (msgs msgs' : List Message) : newKeys (msgs ++ msgs') = newKeys msgs ++ newKeys msgs' := by
  simp [newKeys]

/-- Only the first message of a package has a new timestamp. -/
theorem newKeys_drop {p : NetPackage} {c : Nat} (hc : 0 < c) : newKeys (p.messages.drop c) = [] := by
  rw [newKeys, List.map_eq_nil_iff, List.filter_eq_nil_iff]
  intro msg hmsg
  obtain ⟨i, hi, rfl⟩ := List.mem_iff_getElem.1 hmsg
  simp [NetPackage.messages]
  omega

theorem newKeys_messages (p : NetPackage) : newKeys p.messages = [p.stamp] := by
  obtain ⟨msg, rest, hmsgs⟩ := List.exists_cons_of_ne_nil p.messages_ne_nil
  have hrest : newKeys rest = [] := by
    have := newKeys_drop (p := p) Nat.one_pos
    rwa [hmsgs, List.drop_one, List.tail_cons] at this
  have hfirst : msg.index = 0 := by
    have := congrArg (fun l => (l.head?.map Message.index).getD 0) hmsgs
    rw [List.head?_cons] at this
    rw [Option.map_some, Option.getD_some] at this
    rw [← this]
    simp [NetPackage.messages, NetPackage.chunkCount, List.head?_range]
  rw [hmsgs, newKeys_cons, if_pos hfirst, hrest, List.append_nil,
    NetPackage.pkg_of_mem (p := p) (hmsgs ▸ List.mem_cons_self)]

theorem newKeys_flatMap (ps : List NetPackage) : newKeys (ps.flatMap NetPackage.messages) = ps.map NetPackage.stamp := by
  induction ps with
  | nil => rfl
  | cons p ps ih => rw [List.flatMap_cons, newKeys_append, newKeys_messages, ih, List.map_cons, List.singleton_append]

/-- The messages a completion brings are the next ones of the stream. -/
theorem Arrival.msgs_prefix (e t : Nat) (todo : List Framed) : (Arrival.of e t todo).msgs <+: todo.map Framed.msg := by
  have hbuffer (joined : List Framed) (T : Nat) (todo : List Framed) : (Arrival.ofBuffer joined T todo).own <+: todo := by
    cases todo with
    | nil => exact List.nil_prefix
    | cons f fs =>
      rw [Arrival.ofBuffer]
      split_ifs
      · exact List.nil_prefix
      · obtain ⟨rest, hrest, -⟩ := PackPerData.whole_prefix (T - f.length) fs
        exact ⟨rest, congrArg (f :: ·) hrest.symm⟩
  rw [Arrival.msgs]
  refine List.IsPrefix.map _ ?_
  by_cases he : e = 0
  · rw [he, Arrival.of_zero, Arrival.joined_ofBuffer]
    exact hbuffer [] t todo
  · cases todo with
    | nil =>
      rw [Arrival.of, if_neg he]
      exact List.nil_prefix
    | cons f rest =>
      rw [Arrival.of_pos t f rest he, Arrival.joined_ofBuffer, List.singleton_append]
      exact List.cons_prefix_cons.2 ⟨rfl, hbuffer [f] _ rest⟩

/-- Packages with timestamps of their own keep them apart in the map. -/
theorem Ready.keysApart (hr : Ready True base s k q pExtend e todo gs ps)
    (hstamps : ((gs.map FrameGroup.pkg ++ ps).map NetPackage.stamp).Nodup) : s.KeysApart todo n := by
  have hahead : newKeys (ahead gs) = [] := by
    rcases incomplete_single hr.waiting hr.incomplete with rfl | ⟨g, rfl⟩
    · rfl
    · have hne := (hr.waiting.begun g (List.mem_singleton_self g)).ne_nil
      rw [show [g] = [] ++ [g] from rfl, ahead_concat, FrameGroup.missing]
      exact newKeys_drop (List.length_pos_iff.2 hne)
  have hall : newKeys (todo.map Framed.msg) = ps.map NetPackage.stamp := by
    rw [← hr.stream, newKeys_append, hahead, newKeys_flatMap, List.nil_append]
  obtain ⟨rest, hrest⟩ := Arrival.msgs_prefix e (q + n) todo
  have hsub : (newKeys (Arrival.of e (q + n) todo).msgs).Sublist (ps.map NetPackage.stamp) := by
    rw [← hall, ← hrest, newKeys_append]
    exact List.sublist_append_left ..
  rw [RecvSession.KeysApart, hr.keys, hr.arrival]
  rw [List.map_append, List.map_map] at hstamps
  exact hstamps.sublist (List.Sublist.append (List.Sublist.refl _) hsub)

/-! ## The end of the stream -/

/-- Every package that is not handed out has a message to come. -/
theorem Ready.message_of (hr : Ready True base s k q pExtend e todo gs ps) {p : NetPackage} (hp : p ∈ gs.map FrameGroup.pkg ++ ps) :
    ∃ f ∈ todo, f.msg.pkg = p := by
  have hmsg : ∃ msg ∈ todo.map Framed.msg, msg.pkg = p := by
    rw [← hr.stream]
    cases List.mem_append.1 hp with
    | inl hin =>
      obtain ⟨g, hg, rfl⟩ := List.mem_map.1 hin
      obtain ⟨msg, rest, hmissing⟩ := List.exists_cons_of_ne_nil fun hnil =>
        hr.incomplete g hg ((missing_eq_nil (hr.waiting.begun g hg)).1 hnil)
      have hmem : msg ∈ g.missing := hmissing ▸ List.mem_cons_self
      have hahead : ahead gs = g.missing := by
        rcases incomplete_single hr.waiting hr.incomplete with rfl | ⟨g', rfl⟩
        · cases hg
        · rw [List.mem_singleton.1 hg]
          exact ahead_concat [] g'
      exact ⟨msg, List.mem_append_left _ (hahead ▸ hmem), NetPackage.pkg_of_mem (List.mem_of_mem_drop hmem)⟩
    | inr hin =>
      obtain ⟨msg, rest, hmsgs⟩ := List.exists_cons_of_ne_nil p.messages_ne_nil
      have hmem : msg ∈ p.messages := hmsgs ▸ List.mem_cons_self
      exact ⟨msg, List.mem_append_right _ (List.mem_flatMap.2 ⟨p, hin, hmem⟩), NetPackage.pkg_of_mem hmem⟩
  obtain ⟨msg, hin, hpkg⟩ := hmsg
  obtain ⟨f, hf, rfl⟩ := List.mem_map.1 hin
  exact ⟨f, hf, hpkg⟩

/-- A frame without data is one of an empty package. -/
theorem Framed.empty {f : Framed} (hf : f.length = 24) : f.msg.pkg.m_len = 0 := by
  have hlen : f.msg.chunk.length = 0 := Nat.add_left_cancel hf
  have hmem := f.mem
  have hs : (f.msg.pkg.m_pData.getD []).length = f.msg.pkg.m_len := f.sized
  have hindex := (NetPackage.total_of_mem hmem).2
  obtain ⟨c, -, hc⟩ := List.mem_map.1 hmem
  have hchunk := congrArg (fun g => g.chunk.length) hc
  have hnumber := congrArg Message.index hc
  dsimp only at hchunk hnumber
  rw [List.length_take, List.length_drop, hs, hlen] at hchunk
  rw [← hnumber, NetPackage.chunkCount] at hindex
  omega

/-- When all bytes were received, the packages that are not handed out are empty. -/
theorem Ready.none_left (hr : Ready True base s k q pExtend e todo gs ps) (hall : e + q = (streamBytes todo).length) :
    (gs.map FrameGroup.pkg ++ ps).filterMap NetPackage.delivered = [] := by
  rw [List.filterMap_eq_nil_iff]
  intro p hp
  obtain ⟨f, hf, rfl⟩ := hr.message_of hp
  have hpos : 0 < e ∨ 0 < q := by
    obtain ⟨l₁, l₂, rfl⟩ := List.append_of_mem hf
    have := f.le_length
    simp only [streamBytes_append, streamBytes_cons, List.length_append, Framed.length_bytes] at hall
    omega
  obtain ⟨len, -, hcase⟩ := hr.listening.posted
  have hlen : f.length = 24 := by
    rcases hcase with ⟨rfl, -⟩ | ⟨-, rfl, f', rest, rfl, hlt, -⟩
    · -- the last frame is 24 bytes long and was left over
      obtain ⟨f', rest, rfl, hle, heq⟩ := hr.listening.left_le (hpos.resolve_right (lt_irrefl 0))
      rw [streamBytes_cons, List.length_append, Framed.length_bytes] at hall
      have hrest : rest = [] := by
        cases rest with
        | nil => rfl
        | cons f'' rest =>
          have := f''.le_length
          rw [streamBytes_cons, List.length_append, Framed.length_bytes] at hall
          omega
      subst hrest
      rw [List.mem_singleton.1 hf]
      simp only [streamBytes, List.flatMap_nil, List.length_nil] at hall
      omega
    · rw [streamBytes_cons, List.length_append, Framed.length_bytes] at hall
      omega
  rw [NetPackage.delivered, if_neg (by rw [Framed.empty hlen]; exact lt_irrefl 0)]

/-! ## Runs -/

/-- The completions after which the packages that are complete have been handed out in their order. -/
def Delivers (base : Int) (h : RecvHandle) (s : RecvSession) (todo : List Framed) (n : Nat) : Prop :=
  s.Clean True base h todo n ∧ s.Sorted base h todo n ∧ s.InOrder base todo n

instance : Decidable (Delivers base h s todo n) := inferInstanceAs (Decidable (_ ∧ _ ∧ _))

namespace Feeding

variable {r r' r₀ : Feeding} {a : Feed} {now : Int}

/-- The network completes a request with `n` more bytes of the stream, as many as it asks for at most. -/
def Completes (frames : List Framed) (r : Feeding) (n : Nat) : Prop :=
  0 < n ∧ r.received + n ≤ (streamBytes frames).length ∧ ∃ req ∈ r.session.posted.head?, n ≤ req.len

instance : Decidable (Completes frames r n) := inferInstanceAs (Decidable (_ ∧ _ ∧ ∃ req ∈ r.session.posted.head?, _))

/-- The steps of a network, when the receiver provides for the completions. -/
def Allowed (base : Int) (h : RecvHandle) (frames : List Framed) (r : Feeding) : Feed → Prop
  | .arrive n => r.Completes frames n ∧ Delivers base h r.session (r.todo frames) n
  | .parse _ => True

instance : ∀ a, Decidable (Allowed base h frames r a)
  | .arrive n => inferInstanceAs (Decidable (r.Completes frames n ∧ Delivers base h r.session (r.todo frames) n))
  | .parse _ => isTrue trivial

/-- What is asked of a completion, with the timestamps kept apart. -/
def Provided (base : Int) (h : RecvHandle) (s : RecvSession) (todo : List Framed) (n : Nat) : Prop :=
  Delivers base h s todo n ∧ s.KeysApart todo n

theorem provides_provided : Provides True base h (Provided base h) := fun _ _ _ hok => ⟨hok.1.1, hok.2, fun _ => hok.1.2.1⟩

/-- Between two completions: the packages of the stream are those handed out, those that wait and those to come. -/
structure Served (base : Int) (frames : List Framed) (packages : List NetPackage) (r : Feeding) (k q : Nat) (pExtend : Option Nat)
    (e : Nat) (todo : List Framed) (gs : List FrameGroup) (ps : List NetPackage) : Prop where
  resting : Resting True base frames r k q pExtend e todo gs ps
  queue : ∃ done, packages = done ++ (gs.map FrameGroup.pkg ++ ps) ∧ r.session.m_recvQueue = done.filterMap NetPackage.delivered

/-- The states of a run: between two completions, or with one that is not worked off yet. -/
def Serves (base : Int) (h : RecvHandle) (frames : List Framed) (packages : List NetPackage) (r : Feeding) : Prop :=
  (∃ k q pExtend e todo gs ps, Served base frames packages r k q pExtend e todo gs ps) ∨
    ∃ r₀ n k q pExtend e todo gs ps, Served base frames packages r₀ k q pExtend e todo gs ps ∧
      Arriving True base frames (Provided base h) r r₀ n k q pExtend e todo gs ps

/-- The network can complete the request that is out. -/
theorem Resting.completes (hr : Resting True base frames r k q pExtend e todo gs ps) (hbase : 0 < base) (hn : r.Completes frames n) :
    ∃ r', r.step h frames (.arrive n) = .ok r' := by
  obtain ⟨hpos, henough, req, hreq, hle⟩ := hn
  obtain ⟨len, hposted, -⟩ := hr.ready.listening.posted
  have hlen : (((streamBytes frames).drop r.received).take n).length = n := by
    rw [List.length_take_of_le]
    rw [List.length_drop]
    omega
  rw [hposted] at hreq
  cases hreq
  have hcan := hr.ready.complete (((streamBytes frames).drop r.received).take n) hbase hr.idle
    (List.length_pos_iff.1 (hlen.symm ▸ hpos)) fun req hin => by
      rw [hposted] at hin
      rw [List.mem_singleton.1 hin, hlen]
      exact hle
  rw [step, if_neg (Nat.not_lt.2 henough), hcan]
  exact ⟨_, rfl⟩

theorem Served.arrive (hr : Served base frames packages r k q pExtend e todo gs ps) (hbase : 0 < base)
    (hstamps : (packages.map NetPackage.stamp).Nodup) (ha : Allowed base h frames r (.arrive n)) :
    ∃ r', r.step h frames (.arrive n) = .ok r' ∧ Serves base h frames packages r' := by
  obtain ⟨hn, hdelivers⟩ := ha
  obtain ⟨done, hpkgs, -⟩ := hr.queue
  obtain ⟨r', hstep⟩ := hr.resting.completes hbase hn
  rw [hpkgs, List.map_append] at hstamps
  have hkeys : r.session.KeysApart todo n := hr.resting.ready.keysApart (List.Nodup.of_append_right hstamps)
  have hok : Provided base h r.session (r.todo frames) n := ⟨hdelivers, by rw [hr.resting.todo_eq]; exact hkeys⟩
  exact ⟨r', hstep, .inr ⟨r, n, k, q, pExtend, e, todo, gs, ps, hr, hr.resting.arrive hbase hok hstep⟩⟩

/-- `ParseData` hands out what the completion has made complete. -/
theorem Served.parse (now : Int) (hr : Served base frames packages r₀ k q pExtend e todo gs ps)
    (ha : Arriving True base frames (Provided base h) r r₀ n k q pExtend e todo gs ps) (hbase : 0 < base) (hsorts : h.Sorts)
    (hworks : h.Works) : ∃ r', r.step h frames (.parse now) = .ok r' ∧
      ∃ k q pExtend e todo gs ps, Served base frames packages r' k q pExtend e todo gs ps := by
  obtain ⟨t, s₃, s', htaken, hgoes, hnext, -⟩ := ha.next now hbase hsorts provides_provided
  obtain ⟨k', q', pExtend', e', todo', gs', ps', hr', more, hmore, hqueue⟩ := ha.rests hnext
  obtain ⟨done, hpkgs, hdone⟩ := hr.queue
  refine ⟨_, ?_, k', q', pExtend', e', todo', gs', ps', hr', done ++ more, ?_, ?_⟩
  · rw [step, ha.parse htaken hgoes]
    rfl
  · rw [hpkgs, hmore, List.append_assoc]
  · rw [List.filterMap_append, ← hdone]
    exact hqueue trivial hworks ha.ok.1.2.2

theorem Serves.step (hr : Serves base h frames packages r) (hbase : 0 < base) (hsorts : h.Sorts) (hworks : h.Works)
    (hstamps : (packages.map NetPackage.stamp).Nodup) (ha : Allowed base h frames r a) :
    ∃ r', r.step h frames a = .ok r' ∧ Serves base h frames packages r' := by
  cases hr with
  | inl hr =>
    obtain ⟨k, q, pExtend, e, todo, gs, ps, hr⟩ := hr
    cases a with
    | arrive n => exact hr.arrive hbase hstamps ha
    | parse now =>
      -- nothing is queued
      refine ⟨r, ?_, .inl ⟨k, q, pExtend, e, todo, gs, ps, hr⟩⟩
      have hsame : ({ r.session with m_perIoDatas := [] } : RecvSession) = r.session := by rw [← hr.resting.idle]
      rw [Feeding.step, RecvSession.parseData, hr.resting.idle]
      exact congrArg (fun s => Except.ok (Feeding.mk s r.received)) hsame
  | inr hr =>
    obtain ⟨r₀, n₀, k, q, pExtend, e, todo, gs, ps, hr, harr⟩ := hr
    cases a with
    | arrive n =>
      -- no request is out
      obtain ⟨⟨-, -, req, hreq, -⟩, -⟩ := ha
      rw [harr.session] at hreq
      cases hreq
    | parse now =>
      obtain ⟨r', hstep, hr'⟩ := hr.parse now harr hbase hsorts hworks
      exact ⟨r', hstep, .inl hr'⟩

/-- However the stream is cut, a run whose completions the receiver provides for throws nothing: a request is
out after each `ParseData`, the packages are handed out in their order, each once, and when all bytes have
been worked off, all of them are. -/
theorem received_run {acts : List Feed} (hbase : 0 < base) (hsorts : h.Sorts) (hworks : h.Works) (hs : Starts base s)
    (hframes : frames.map Framed.msg = packages.flatMap NetPackage.messages) (hstamps : (packages.map NetPackage.stamp).Nodup)
    (hk : Along (step h frames) (Allowed base h frames) ⟨s, 0⟩ acts) :
    ∃ r, acts.foldlM (step h frames) ⟨s, 0⟩ = .ok r ∧
      (r.session.m_perIoDatas = [] → r.session.posted.length = 1) ∧
      r.session.m_recvQueue <+: packages.filterMap NetPackage.delivered ∧
      (r.session.m_perIoDatas = [] → r.received = (streamBytes frames).length →
        r.session.m_recvQueue = packages.filterMap NetPackage.delivered) := by
  obtain ⟨hrest, hempty⟩ := hs.resting hbase hframes
  have hstart : Serves base h frames packages ⟨s, 0⟩ :=
    .inl ⟨_, _, _, _, _, _, _, hrest, [], rfl, hempty⟩
  obtain ⟨r, hrun, hr⟩ := hk.run (Serves base h frames packages) hstart fun r a hr ha => hr.step hbase hsorts hworks hstamps ha
  refine ⟨r, hrun, ?_⟩
  cases hr with
  | inl hr =>
    obtain ⟨k, q, pExtend, e, todo, gs, ps, hr⟩ := hr
    obtain ⟨done, hpkgs, hqueue⟩ := hr.queue
    obtain ⟨len, hposted, -⟩ := hr.resting.ready.listening.posted
    obtain ⟨taken, htodo, hreceived⟩ := hr.resting.taken
    rw [hpkgs, List.filterMap_append, ← hqueue]
    refine ⟨fun _ => by rw [hposted]; rfl, List.prefix_append .., fun _ hall => ?_⟩
    rw [hr.resting.ready.none_left, List.append_nil]
    rw [htodo, streamBytes_append, List.length_append] at hall
    omega
  | inr hr =>
    obtain ⟨r₀, n, k, q, pExtend, e, todo, gs, ps, hr, harr⟩ := hr
    obtain ⟨done, hpkgs, hqueue⟩ := hr.queue
    rw [harr.session, hpkgs, List.filterMap_append, ← hqueue]
    exact ⟨nofun, List.prefix_append .., nofun⟩

/-- A package of two frames, an empty one and a short one. -/
def threePackages : List Framed := framesOf 1500 1 7 (by decide) ++ framesOf 0 2 8 (by decide) ++ framesOf 30 3 9 (by decide)

theorem msgs_threePackages : threePackages.map Framed.msg =
    [Reassembling.bytesOf 1500 1 7, Reassembling.bytesOf 0 2 8, Reassembling.bytesOf 30 3 9].flatMap NetPackage.messages := by
  rw [threePackages, List.map_append, List.map_append, msgs_framesOf, msgs_framesOf, msgs_framesOf]
  rfl

/-- The first frame comes in two pieces, and the last one is cut in its head. -/
theorem received_run_three : ∃ r, [Feed.arrive 700, .parse 0, .arrive 324, .parse 0, .arrive 560, .parse 0, .arrive 42, .parse 0].foldlM
      (step .plain threePackages) ⟨opened, 0⟩ = .ok r ∧ r.session.m_recvQueue.map RecvPackage.m_len = [1500, 30] := by
  have hmet : Along (step .plain threePackages) (Allowed 4096 .plain threePackages) ⟨opened, 0⟩
      [Feed.arrive 700, .parse 0, .arrive 324, .parse 0, .arrive 560, .parse 0, .arrive 42, .parse 0] := by decide +kernel
  have hended : ∃ r, [Feed.arrive 700, .parse 0, .arrive 324, .parse 0, .arrive 560, .parse 0, .arrive 42, .parse 0].foldlM
      (step .plain threePackages) ⟨opened, 0⟩ = .ok r ∧
      (r.session.m_perIoDatas = [] ∧ r.received = (streamBytes threePackages).length) := by decide +kernel
  obtain ⟨r, hrun, -, -, hall⟩ := received_run (by decide) RecvHandle.sorts_plain RecvHandle.works_plain starts_opened
    msgs_threePackages (by decide) hmet
  obtain ⟨r', hrun', hidle, hreceived⟩ := hended
  cases hrun.symm.trans hrun'
  refine ⟨r, hrun, ?_⟩
  rw [hall hidle hreceived]
  decide

/-- A package of two frames, the second with one byte of data. -/
def movedFrames : List Framed := framesOf 1001 1 7 (by decide)

/-- The ten bytes of the second frame that come with the first one are moved over the head of the first, and
nothing is handed out. -/
theorem not_delivered_moved : movedFrames.map Framed.msg = [Reassembling.bytesOf 1001 1 7].flatMap NetPackage.messages ∧
    ∃ r, [Feed.arrive 1034, .parse 0, .arrive 15, .parse 0].foldlM (step .plain movedFrames) ⟨opened, 0⟩ = .ok r ∧
      r.session.m_perIoDatas = [] ∧ r.received = (streamBytes movedFrames).length ∧
      r.session.m_recvQueue ≠ [Reassembling.bytesOf 1001 1 7].filterMap NetPackage.delivered := by
  refine ⟨by rw [movedFrames, msgs_framesOf]; rfl, ?_⟩
  have hended : ∃ r, [Feed.arrive 1034, .parse 0, .arrive 15, .parse 0].foldlM (step .plain movedFrames) ⟨opened, 0⟩ = .ok r ∧
      (r.session.m_perIoDatas = [] ∧ r.received = (streamBytes movedFrames).length ∧ r.session.m_recvQueue = []) := by decide +kernel
  obtain ⟨r, hrun, hidle, hreceived, hempty⟩ := hended
  refine ⟨r, hrun, hidle, hreceived, ?_⟩
  rw [hempty]
  decide

end Feeding
