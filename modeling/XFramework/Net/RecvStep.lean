/-
A pass of `ParseData` over a completion (Net/SocketSession.cpp).

The three outcomes of a completion the receiver provides for: a part of a
frame and nothing else, a part of a frame behind the one that was left over,
and whole frames, behind which the next request is posted. Each leaves the
session ready (`Ready.pass`).
-/
import XFramework.Net.RecvReady

open Bytes Fallible

variable {exact : Prop} {base : Int} {s p : RecvSession} {h : RecvHandle} {k q e n : Nat} {pExtend : Option Nat}
  {todo todo' : List Framed} {gs gs₁ : List FrameGroup} {ps ps₁ : List NetPackage} {t : Taken} {now : Int} {g : FrameGroup}
  {rest : List Message} {a : Arrival}

/-- What is the same in the session whose request was completed. -/
structure Pending (base : Int) (s p : RecvSession) (k : Nat) (pExtend : Option Nat) : Prop where
  online : p.m_bOnline = true
  place : p.m_rPostIndex = k
  posted : p.posted = []
  map : p.m_mapFrames = s.m_mapFrames
  queue : p.m_recvQueue = s.m_recvQueue
  ne : pExtend ≠ some k

theorem Pending.enter_online (hp : Pending base s p k pExtend) : (t.enter p).m_bOnline = true := by
  rw [enter_eq]
  exact hp.online

theorem Pending.enter_place (hp : Pending base s p k pExtend) : (t.enter p).m_rPostIndex = k := by
  rw [enter_eq]
  exact hp.place

theorem enter_mem : (t.enter p).mem = t.mem := by
  rw [enter_eq]
  rfl

theorem enter_bufs : (t.enter p).m_RecvBuf = t.m_RecvBuf := by
  rw [enter_eq]
  rfl

theorem enter_posted : (t.enter p).posted = t.posted := by
  rw [enter_eq]
  rfl

/-- Nothing but a part of a frame came. -/
theorem Ready.pass_part (now : Int) (hr : Ready exact base s k q pExtend e todo gs ps) (hp : Pending base s p k pExtend)
    (hT : Taking exact base s p k pExtend a todo todo' gs t) (ha : Asked base k pExtend [] a todo' t) (hjoined : a.joined = [])
    (hown : a.own = []) (htotal : 24 < a.total) (hlen : a.total = e + (q + n)) :
    ∃ s₃ s', Goes h now p k t s₃ s' ∧ Next exact base h s s₃ s' k q e n todo gs ps := by
  have hframes : t.frames = [] := by
    rw [hT.brought.frames, Arrival.frames, hjoined, hown]
    rfl
  have htodo : todo = todo' := by
    have := hT.brought.todo
    rwa [hjoined, hown] at this
  have hl : Listening base (t.enter p) k a.total pExtend 0 todo' :=
    ha.listening htotal enter_mem enter_bufs enter_posted hp.enter_online hp.enter_place hp.ne
  have henter : t.enter p = t.base p := by rw [Taken.enter, hframes]; rfl
  have hmap : (t.enter p).m_mapFrames = s.m_mapFrames := by
    rw [henter]
    exact hp.map
  have hmem : (t.enter p).mem = t.mem := enter_mem
  have hwaiting : Waiting exact (t.enter p).mem (t.enter p).m_mapFrames gs := by
    rw [hmap, hmem]
    exact hT.waiting
  have hfree : ∀ g ∈ gs, ∀ fr ∈ g.frames, ∃ i, i < 4 ∧ i ≠ k ∧ fr.LiesIn base (t.enter p).mem i := by
    rw [hmem]
    exact hT.free
  refine ⟨_, _, .inl ⟨by rw [Taken.stamp, hframes]; rfl, rfl, rfl⟩, ⟨k, a.total, pExtend, 0, todo', gs, ps,
    ⟨hl, hwaiting, hr.incomplete, by rw [← htodo]; exact hr.stream, hr.sized, hfree⟩,
    ⟨[], htodo, ?_⟩, [], rfl, fun _ _ _ => ?_⟩, fun _ => ?_⟩
  · simp only [streamBytes, List.flatMap_nil, List.length_nil]
    omega
  · rw [henter, List.filterMap_nil, List.append_nil]
    exact hp.queue
  · refine hl.spared (m := (t.enter p).mem) fun fr hfr => ?_
    obtain ⟨g, hg, hin⟩ := hwaiting.mem_waitingFrames.1 hfr
    exact hfree g hg fr hin

/-- The frame that was left over is completed, and a part of the next one is behind it. -/
theorem Ready.pass_joined (now : Int) (hr : Ready exact base s k q pExtend e todo gs ps) (hp : Pending base s p k pExtend)
    (hT : Taking exact base s p k pExtend a todo todo' gs t) (ha : Asked base k pExtend [] a todo' t) (hown : a.own = [])
    (hjoined : a.joined ≠ []) (hj : pExtend.getD 0 < 4) (hjk : pExtend.getD 0 ≠ k) (hsame : s.arrival todo n = a)
    (hframes : t.frames = s.newFrames base todo n) (he : Entered exact p t gs gs₁ ps ps₁ a.msgs (todo'.map Framed.msg) g)
    (hsorts : h.Sorts) (htotal : 24 < a.total) (hlen : (streamBytes a.joined).length + a.total = e + (q + n)) :
    ∃ s₃ s', Goes h now p k t s₃ s' ∧ Next exact base h s s₃ s' k q e n todo gs ps := by
  have hne : a.msgs ≠ [] := by
    rw [Arrival.msgs, hown, List.append_nil]
    simpa using hjoined
  have hl : Listening base (t.enter p) k a.total pExtend 0 todo' :=
    ha.listening htotal enter_mem enter_bufs enter_posted hp.enter_online hp.enter_place hp.ne
  have hfree : ∀ g' ∈ gs₁, ∀ fr ∈ g'.frames, ∃ i, i < 4 ∧ i ≠ k ∧ fr.LiesIn base t.mem i := fun g' hg' fr hfr => by
    obtain ⟨i, hi, hlies, hplace⟩ := hT.liesIn hr.listening.arrived.lt (fun _ => hj) he hg' hfr
    refine ⟨i, hi, fun hik => ?_, hlies⟩
    cases hplace with
    | inl hold =>
      obtain ⟨g₀, hg₀, hin⟩ := hold
      obtain ⟨i', -, hne', hlies'⟩ := hT.free g₀ hg₀ fr hin
      have := hlies.index
      have := hlies'.index
      omega
    | inr hnew =>
      rw [hT.brought.frames, Arrival.frames, hown, Arrival.ownFrames, List.append_nil, List.mem_map] at hnew
      obtain ⟨f, -, rfl⟩ := hnew
      have := hlies.index
      dsimp only at this
      omega
  obtain ⟨s', hdeliver, hl'⟩ := hl.deliver now he.waiting.weaken (fun g' hg' =>
    hr.sized _ (he.pkgs ▸ List.mem_append_left _ (List.mem_map_of_mem hg'))) hsorts fun hpos => absurd hpos (lt_irrefl 0)
  have hflag : t.bFlag = true := by
    rw [ha.bFlag]
    cases hcase : a.joined with
    | nil => exact absurd hcase hjoined
    | cons f fs => rfl
  have hgoes : Goes h now p k t (t.enter p) s' := .inr ⟨g.key, false, he.stamp, by rw [hflag]; rfl, hdeliver⟩
  have hnone : (t.base p).firstExtend = none := by
    have hl₀ : Listening base (t.base p) k a.total pExtend 0 todo' := ha.listening htotal rfl rfl rfl hp.online hp.place hp.ne
    rw [hl₀.firstExtend, if_neg (lt_irrefl 0)]
  obtain ⟨left, hready, done, hpkgs, hqueue⟩ := he.ready hr hT (fun _ => hj) hsame hframes hne hp.queue hl' rfl hgoes hsorts
    (fun _ hext => by
      have hsome := hext hflag
      rw [hnone] at hsome
      cases hsome)
    (fun g' hg' _ fr hfr => by
      obtain ⟨i, -, hik, hlies⟩ := hfree g' hg' fr hfr
      have := hlies.index
      omega)
  refine ⟨_, s', hgoes, ⟨k, a.total, pExtend, 0, todo', left, ps₁, hready, ⟨a.joined, ?_, ?_⟩, done, hpkgs, hqueue⟩, fun _ => ?_⟩
  · have := hT.brought.todo
    rwa [hown, List.append_nil] at this
  · omega
  · refine hl.spared (m := t.mem) fun fr hfr => ?_
    obtain ⟨g', hg', hin⟩ := he.waiting.mem_waitingFrames.1 hfr
    exact hfree g' hg' fr hin

/-- The frames that wait lie in the four buffers. -/
theorem Taking.index_le (hT : Taking exact base s p k pExtend a todo todo' gs t) (hk : k < 4)
    (hext : a.joined ≠ [] → pExtend.getD 0 < 4) (he : Entered exact p t gs gs₁ ps ps₁ a.msgs (todo'.map Framed.msg) g)
    {g' : FrameGroup} {fr : MsgFrame} (hg' : g' ∈ gs₁) (hfr : fr ∈ g'.frames) : fr.m_index ≤ 3 := by
  obtain ⟨i, hi, hlies, -⟩ := hT.liesIn hk hext he hg' hfr
  have := hlies.index
  omega

/-- A package that becomes complete in the last buffer has a frame in one of the last two. -/
theorem Ready.last_places (hr : Ready exact base s k q pExtend e todo gs ps)
    (hT : Taking exact base s p k pExtend a todo todo' gs t) (hj : a.joined ≠ [] → 0 < e)
    (he : Entered exact p t gs gs₁ ps ps₁ a.msgs (todo'.map Framed.msg) g) (hk3 : k = 3) {g' : FrameGroup} (hg' : g' ∈ gs₁)
    (hc : g'.Complete) : ∃ fr ∈ g'.frames, 2 ≤ fr.m_index := by
  cases he.grown g' hg' with
  | inl hold => exact absurd hc (hr.incomplete g' hold)
  | inr hnew =>
    obtain ⟨⟨fr, hfr, hin⟩, -⟩ := hnew
    refine ⟨fr, hfr, ?_⟩
    cases hT.brought.liesIn fr hin with
    | inl hlies =>
      have := hlies.index
      omega
    | inr hlies =>
      have hring := hr.listening.ring (hj hlies.1) hk3
      have := hlies.2.index
      rw [hring, Option.getD_some] at this
      omega

/-- A frame that waits after the pass did so before, or has come. -/
theorem Ready.mem_underWay (hr : Ready exact base s k q pExtend e todo gs ps)
    (hT : Taking exact base s p k pExtend a todo todo' gs t) (hk : k < 4) (hext : a.joined ≠ [] → pExtend.getD 0 < 4)
    (hframes : t.frames = s.newFrames base todo n) (he : Entered exact p t gs gs₁ ps ps₁ a.msgs (todo'.map Framed.msg) g)
    {g' : FrameGroup} {fr : MsgFrame} (hg' : g' ∈ gs₁) (hfr : fr ∈ g'.frames) :
    fr ∈ s.waitingFrames ++ s.newFrames base todo n ∧ ∃ i, i < 4 ∧ fr.LiesIn base t.mem i := by
  obtain ⟨i, hi, hlies, hplace⟩ := hT.liesIn hk hext he hg' hfr
  refine ⟨?_, i, hi, hlies⟩
  cases hplace with
  | inl hold =>
    obtain ⟨g₀, hg₀, hin⟩ := hold
    exact List.mem_append_left _ (hr.mem_waitingFrames hg₀ hin)
  | inr hnew => exact List.mem_append_right _ (hframes ▸ hnew)

/-- Sorting the frames of the last group brings no frame that was not there. -/
theorem Waiting.resorted {gs₀ : List FrameGroup} {m : Mem} {map : StdMap Int (List MsgFrame)} {fs : List MsgFrame}
    {s₃ : RecvSession} {fr : MsgFrame} (hw : Waiting False m map (gs₀ ++ [g])) (hperm : fs.Perm g.frames)
    (hmap : s₃.m_mapFrames = map.set g.key fs) (hfr : fr ∈ s₃.waitingFrames) : ∃ g₁ ∈ gs₀ ++ [g], fr ∈ g₁.frames := by
  have hw₃ := hw.resort hperm nofun
  rw [← hmap] at hw₃
  obtain ⟨g', hg', hin⟩ := hw₃.mem_waitingFrames.1 hfr
  cases List.mem_append.1 hg' with
  | inl hin' => exact ⟨g', List.mem_append_left _ hin', hin⟩
  | inr heq =>
    rw [List.mem_singleton.1 heq] at hin
    exact ⟨g, List.mem_append_right _ (List.mem_singleton_self g), hperm.subset hin⟩

/-- Whole frames came, and the next request is posted behind them. -/
theorem Ready.pass_whole (now : Int) (hr : Ready exact base s k q pExtend e todo gs ps) (hp : Pending base s p k pExtend)
    (hT : Taking exact base s p k pExtend a todo todo' gs t) (ha : Passed base k [] a todo' t) (hpart : ¬a.Partial)
    (hj : a.joined ≠ [] → 0 < e ∧ pExtend.getD 0 < 4) (hsame : s.arrival todo n = a) (hframes : t.frames = s.newFrames base todo n)
    (he : Entered exact p t gs gs₁ ps ps₁ a.msgs (todo'.map Framed.msg) g) (hne : a.msgs ≠ []) (hbase : 0 < base)
    (hc : RecvSession.Clean exact base h s todo n) (hsorts : h.Sorts) (hsorted : exact → s.Sorted base h todo n)
    (hlen : (streamBytes a.joined).length + a.total = e + (q + n)) (hown : (streamBytes a.own).length + a.left = a.total) :
    ∃ s₃ s', Goes h now p k t s₃ s' ∧ Next exact base h s s₃ s' k q e n todo gs ps := by
  have hk := hr.listening.arrived.lt
  have hext : a.joined ≠ [] → pExtend.getD 0 < 4 := fun h => (hj h).2
  have hiff := he.complete_iff hr hsame hframes hne
  have hunder : s.nextFrames base todo n = g.frames := by
    rw [RecvSession.nextFrames, hr.waitingFrames, hsame, ← hframes, he.frames]
  obtain ⟨gs₀, hgs⟩ := he.last
  subst hgs
  have hg : g ∈ gs₀ ++ [g] := List.mem_append_right _ (List.mem_singleton_self g)
  have hfull := he.waiting.full_of_concat
  have hb : Behind base (t.enter p).mem (t.enter p).m_RecvBuf k a.left todo' := by
    rw [enter_mem, enter_bufs]
    exact ha.behind
  have hposted : (t.enter p).posted = [] := enter_posted.trans ha.posted
  have hw := he.waiting.weaken
  have hsized : ∀ g' ∈ gs₀ ++ [g], g'.pkg.Sized := fun g' hg' =>
    hr.sized _ (he.pkgs ▸ List.mem_append_left _ (List.mem_map_of_mem hg'))
  have hplaces : ∀ g' ∈ gs₀ ++ [g], ∀ fr ∈ g'.frames, fr.m_index ≤ 3 := fun g' hg' fr => hT.index_le hk hext he hg'
  have hlast : k = 3 → ∀ g' ∈ gs₀ ++ [g], g'.Complete → ∃ fr ∈ g'.frames, 2 ≤ fr.m_index :=
    fun hk3 g' => hr.last_places hT (fun h => (hj h).1) he hk3
  have hflag := ha.bFlag
  have htaken : todo = (a.joined ++ a.own) ++ todo' := hT.brought.todo
  have hbytes : (streamBytes (a.joined ++ a.own)).length + a.left + 0 = e + q + n := by
    rw [streamBytes_append, List.length_append]
    omega
  by_cases hcg : g.Complete
  · have hall : ∀ g' ∈ gs₀ ++ [g], g'.Complete := fun g' hg' => by
      cases List.mem_append.1 hg' with
      | inl hin => exact hfull g' hin
      | inr heq => exact List.mem_singleton.1 heq ▸ hcg
    obtain ⟨s', b, hrun, hl⟩ := complete_listening now hw hcg hsized hsorts hb hbase hp.enter_online hposted hk hplaces
      fun hk3 _ g' hg' => hlast hk3 g' hg' (hall g' hg')
    obtain ⟨⟨s₃, b₃⟩, hgo, hdeliver⟩ := bind_eq_ok.1 hrun
    have hgoes : Goes h now p k t s₃ s' := .inr ⟨g.key, b₃, he.stamp, by rw [hflag]; exact hgo, hdeliver⟩
    obtain ⟨left, hready, done, hpkgs, hqueue⟩ := he.ready hr hT hext hsame hframes hne hp.queue hl rfl hgoes hsorts
      (fun _ _ hlt => absurd hcg (hiff.1 hlt)) fun g' hg' hc' => absurd (hall g' hg') hc'
    refine ⟨s₃, s', hgoes, ⟨b, 0, leftPlace k a.left, a.left, todo', left, ps₁, hready, ⟨_, htaken, hbytes⟩, done, hpkgs, hqueue⟩,
      fun _ req hreq => ?_⟩
    rw [goOn_complete hw hg hcg] at hgo
    cases hgo
    rw [show RecvSession.posted { t.enter p with m_rPostIndex := 0 } = [] from hposted] at hreq
    cases hreq
  · have hgoesOn : s.GoesOn base todo n := ⟨hsame ▸ hpart, hiff.2 hcg⟩
    have hplace := hr.listening.place
    have hleft := hc.left hgoesOn
    have hring := hc.ring hgoesOn
    rw [hsame, hunder, hplace] at hleft
    rw [hunder, hplace] at hring
    obtain ⟨s₃, s', hgo, hmap, hl₃, hdeliver, hl⟩ := incomplete_listening now hw hcg hsized hsorts hb hbase hp.enter_online
      hposted hk hp.enter_place (hplaces g hg) hleft fun hk3 _ g' hg' =>
        hlast hk3 g' (List.mem_append_left _ hg') (hfull g' hg')
    have hgoes : Goes h now p k t s₃ s' := .inr ⟨g.key, false, he.stamp, by rw [hflag]; exact hgo, hdeliver⟩
    obtain ⟨left, hready, done, hpkgs, hqueue⟩ := he.ready hr hT hext hsame hframes hne hp.queue hl rfl hgoes hsorts
      (fun hexact _ _ => hsorted hexact hgoesOn) (fun g' hg' hc' => by
        cases List.mem_append.1 hg' with
        | inl hin => exact absurd (hfull g' hin) hc'
        | inr heq =>
          rw [List.mem_singleton.1 heq]
          exact hring)
    refine ⟨s₃, s', hgoes, ⟨_, 0, leftPlace k a.left, a.left, todo', left, ps₁, hready, ⟨_, htaken, hbytes⟩, done, hpkgs, hqueue⟩,
      fun hfree => hl₃.spared (m := t.mem) fun fr hfr => ?_⟩
    have hfree' := hfree hgoesOn
    rw [hunder, hplace] at hfree'
    obtain ⟨g₁, hg₁, hin₁⟩ := hw.resorted (hsorts.perm g.frames) hmap hfr
    obtain ⟨hunderWay, i, hi, hlies⟩ := hr.mem_underWay hT hk hext hframes he hg₁ hin₁
    exact ⟨i, hi, fun hik => hfree' fr hunderWay (by rw [hlies.index, hik]), hlies⟩

theorem Holds.of_exact {m : Mem} {fr : MsgFrame} {msg : Message} (hf : Holds True m fr msg) : Holds exact m fr msg :=
  ⟨hf.key, hf.total, hf.tSrcLen, hf.tDataLen, hf.nDataLen, fun _ => hf.data trivial⟩

/-- What was left over lies in another of the four buffers. -/
theorem Ready.joined_place {T : Nat} (hr : Ready exact base s k q pExtend e todo gs ps) (hne : (Arrival.of e T todo).joined ≠ []) :
    0 < e ∧ pExtend.getD 0 < 4 ∧ pExtend.getD 0 ≠ k := by
  have hpos : 0 < e := by
    by_contra hzero
    rw [joined_of, if_pos (Nat.eq_zero_of_not_pos hzero)] at hne
    exact hne rfl
  obtain ⟨j, d, f, rest, p, hext, hjk, -⟩ := hr.listening.arrived.left hpos
  rw [hext, Option.getD_some]
  exact ⟨hpos, hr.listening.arrived.lt_ext j hext, hjk⟩

/-- Bytes that are not just a part of a frame hold a whole one. -/
theorem Arrival.msgs_ne_nil {T : Nat} (hpart : ¬a.Partial) (hpos : 0 < T)
    (hlength : (streamBytes a.joined).length + a.total = T) : a.msgs ≠ [] := by
  intro hnil
  rw [Arrival.msgs, List.map_eq_nil_iff, List.append_eq_nil_iff] at hnil
  have hzero : a.total = 0 := by
    by_contra hpos
    exact hpart ⟨hnil.2, Nat.pos_of_ne_zero hpos⟩
  rw [hnil.1, hzero] at hlength
  simp only [streamBytes, List.flatMap_nil, List.length_nil] at hlength
  omega

/-- A completion the receiver provides for leaves the session ready. -/
theorem Ready.pass {bs : List UInt8} (now : Int) (hr : Ready exact base s k q pExtend e todo gs ps) (hbase : 0 < base)
    (hc : RecvSession.Clean exact base h s todo n) (hkeys : s.KeysApart todo n) (hsorts : h.Sorts)
    (hsorted : exact → s.Sorted base h todo n) (hn : 0 < n) (hlen : ∀ req ∈ s.posted, n ≤ req.len)
    (hbs : bs = ((streamBytes todo).drop (e + q)).take n) (henough : e + q + n ≤ (streamBytes todo).length) :
    ∃ t s₃ s', (s.completed k q pExtend base bs).taken k ⟨k, bs.length, base + 4096 * (k : Int) + q, pExtend⟩ = .ok t ∧
      Goes h now (s.completed k q pExtend base bs) k t s₃ s' ∧ Next exact base h s s₃ s' k q e n todo gs ps ∧
      ∀ req ∈ t.posted, req.nIndex = k ∧ req.pExtend = pExtend := by
  obtain ⟨t, todo', htaken, hT⟩ := hr.taken hc hn hlen hbs henough
  obtain ⟨a, ha⟩ : ∃ a, s.arrival todo n = a := ⟨_, rfl⟩
  rw [ha] at hT
  have haof : a = .of e (q + n) todo := ha ▸ hr.arrival
  have hb := hT.brought
  have hp : Pending base s (s.completed k q pExtend base bs) k pExtend :=
    ⟨hr.listening.online, hr.listening.place, rfl, rfl, rfl, hr.listening.ne⟩
  have hjoins := hc.joins
  have hbig := hc.enough
  rw [hr.leftOver] at hjoins hbig
  rw [ha] at hbig
  have hjoin : 0 < e → ∃ f ∈ todo.head?, f.length ≤ e + (q + n) := fun hpos => by
    obtain ⟨f, hf, -, hle⟩ := hjoins hpos
    exact ⟨f, hf, by omega⟩
  have hj : a.joined ≠ [] → 0 < e ∧ pExtend.getD 0 < 4 ∧ pExtend.getD 0 ≠ k := fun hne =>
    hr.joined_place (haof ▸ hne)
  have hlength := Arrival.length_of hjoin
  rw [← haof] at hlength
  have hframes : t.frames = s.newFrames base todo n := by rw [hb.frames, hr.newFrames, haof]
  have hstream : ahead gs ++ ps.flatMap NetPackage.messages = a.msgs ++ todo'.map Framed.msg := by
    rw [hr.stream, Arrival.msgs, ← List.map_append, ← hb.todo]
  have hentered (hne : a.msgs ≠ []) := Waiting.entered (s := s.completed k q pExtend base bs) hT.waiting hstream
    (hb.holds.imp fun _ _ hf => hf.of_exact) hne (by
      rw [RecvSession.KeysApart, hr.keys, ha] at hkeys
      exact hkeys)
  cases hb.outcome with
  | inl hout =>
    obtain ⟨hpart, hask⟩ := hout
    have htotal : 24 < a.total := hbig.resolve_right fun h => absurd h.2 (Nat.ne_of_gt hpart.2)
    obtain ⟨f, rest, -, -, hreq⟩ := hask.posted
    have hposted : ∀ req ∈ t.posted, req.nIndex = k ∧ req.pExtend = pExtend := fun req hin => by
      rw [hreq] at hin
      rw [List.mem_singleton.1 hin]
      exact ⟨rfl, rfl⟩
    by_cases hjoined : a.joined = []
    · rw [hjoined] at hlength
      obtain ⟨s₃, s', hgoes, hnext⟩ := hr.pass_part (h := h) now hp hT hask hjoined hpart.1 htotal (by
        simpa [streamBytes] using hlength)
      exact ⟨t, s₃, s', htaken, hgoes, hnext, hposted⟩
    · obtain ⟨gs₁, ps₁, g, he⟩ := hentered (by
        rw [Arrival.msgs, hpart.1, List.append_nil]
        simpa using hjoined)
      obtain ⟨s₃, s', hgoes, hnext⟩ := hr.pass_joined now hp hT hask hpart.1 hjoined (hj hjoined).2.1 (hj hjoined).2.2 ha
        hframes he hsorts htotal hlength
      exact ⟨t, s₃, s', htaken, hgoes, hnext, hposted⟩
  | inr hout =>
    obtain ⟨hpart, hpass⟩ := hout
    have hne : a.msgs ≠ [] := Arrival.msgs_ne_nil hpart (by omega) hlength
    obtain ⟨gs₁, ps₁, g, he⟩ := hentered hne
    have hown : (streamBytes a.own).length + a.left = a.total := by
      rw [haof] at hpart ⊢
      exact Arrival.length_own hpart (by omega) hjoin
    obtain ⟨s₃, s', hgoes, hnext⟩ := hr.pass_whole now hp hT hpass hpart (fun h => ⟨(hj h).1, (hj h).2.1⟩) ha hframes he hne
      hbase hc hsorts hsorted hlength hown
    refine ⟨t, s₃, s', htaken, hgoes, hnext, fun req hin => ?_⟩
    rw [hpass.posted] at hin
    cases hin
