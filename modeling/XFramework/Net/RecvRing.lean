/-
Where the next request goes (Net/SocketSession.cpp).

Four buffers are a ring for the frames of a package: the request behind an
incomplete one goes to the next buffer, and behind the last one to a buffer
whose place depends on the first that holds a frame of the package
(`nextOf`). Behind a complete package it goes to the buffer behind the bytes
left over. When these two buffers differ, the session listens again
(`Listening`): one request is posted, and it knows what was left over.
-/
import XFramework.Net.RecvArrival

open Bytes Fallible

/-- One request is posted: `q` bytes of the next frame are in buffer `k`, or `e` bytes of it are left over in
the buffer `pExtend`. -/
structure Listening (base : Int) (s : RecvSession) (k q : Nat) (pExtend : Option Nat) (e : Nat) (todo : List Framed) : Prop where
  online : s.m_bOnline = true
  place : s.m_rPostIndex = k
  arrived : Arrived base s.mem s.m_RecvBuf k pExtend e q todo
  posted : ∃ n, s.posted = [⟨base + 4096 * (k : Int) + q, n, k, pExtend⟩] ∧
    (q = 0 ∧ n = 4096 ∨ 24 < q ∧ e = 0 ∧ ∃ f rest, todo = f :: rest ∧ q < f.length ∧ n = f.length - q)
  left_le : 0 < e → ∃ f rest, todo = f :: rest ∧ f.HasLeft e
  ring : 0 < e → k = 3 → pExtend = some 2
  ne : pExtend ≠ some k

/-- The place behind an incomplete package whose frames are `frames`, when the last bytes came in buffer `k`. -/
def nextOf (k : Nat) (frames : List MsgFrame) : Nat :=
  if k = 3 then
    let front := (frames.head?.map (·.m_index)).getD (-1)
    if front > 0 then (((k : Int) - front + 1) % 16).toNat else k
  else k + 1

/-- Where the bytes left over are. -/
def leftPlace (k left : Nat) : Option Nat := if left > 0 then some k else none

variable {base : Int} {s : RecvSession} {h : RecvHandle} {k b left : Nat} {d : PackPerData} {todo : List Framed}
  {bufs : List PackPerData} {m : Mem} {i : Nat} {gs : List FrameGroup} {g : FrameGroup}

/-! ## One request -/

/-- A buffer for which no request was refused. -/
def PackPerData.listen (d : PackPerData) (pStart : Option Nat) : PackPerData :=
  { d with m_pDataCur := some d.m_frame.m_buf, m_nExtendLen := 0, m_nPost := 0, m_pPrevPerData := pStart }

theorem PackPerData.At.postRecv (hd : d.At base i) (hbase : 0 < base) (pStart : Option Nat) :
    d.postRecv pStart = (d.listen pStart, some ⟨base + 4096 * (i : Int), 4096, i, pStart⟩) := by
  have hpost : ¬d.m_nPost > 2 := by
    rw [hd.nPost]
    omega
  have hbuf : ¬d.m_frame.m_buf = 0 := by
    rw [hd.buf]
    omega
  rw [PackPerData.postRecv, if_neg hpost, if_neg hbuf]
  dsimp only
  rw [hd.buf, hd.len, PackPerData.listen, hd.buf, ← hd.index]

theorem PackPerData.At.listen (hd : d.At base i) (pStart : Option Nat) : (d.listen pStart).At base i :=
  ⟨hd.index, hd.frame, rfl, hd.buf, hd.len⟩

/-- The request is posted in another buffer than the bytes left over. -/
theorem Behind.arrived (hb : Behind base m bufs k left todo) (hd : bufs[b]? = some d) (hk : k < 4) (hne : left > 0 → b ≠ k) :
    Arrived base m (bufs.set b (d.listen (leftPlace k left))) b (leftPlace k left) left 0 todo := by
  have hat := (hb.buffers.place b d hd).listen (leftPlace k left)
  have hb4 := hb.buffers.lt hd
  refine ⟨hb.buffers.set hat, hb4, fun j hj => ?_, fun d' hd' => ?_, Nat.zero_le _, ?_, rfl, fun i d' hd' hi => ?_, fun hpos => ?_⟩
  · rw [leftPlace] at hj
    split_ifs at hj
    · cases hj
      exact hk
    · cases hj
  · rw [getElem?_set_self_of hd] at hd'
    cases hd'
    rfl
  · rw [Nat.add_zero]
    by_cases hpos : left > 0
    · obtain ⟨dk, hdk⟩ := hb.buffers.get hk
      obtain ⟨f, rest, p, rfl, hle, -⟩ := hb.left hpos dk hdk
      rw [streamBytes_cons, List.length_append, Framed.length_bytes]
      exact hle.1.trans (Nat.le_add_right ..)
    · rw [Nat.eq_zero_of_not_pos hpos]
      exact Nat.zero_le _
  · rw [List.getElem?_set] at hd'
    split_ifs at hd' with heq hin
    · cases hd'
      rfl
    · by_cases hik : i = k
      · subst hik
        have hlen := hb.len d' hd'
        cases hi with
        | inl hzero => rw [hlen, hzero]
        | inr hext =>
          rw [leftPlace] at hext
          split_ifs at hext with hpos
          · exact absurd rfl hext
          · rw [hlen, Nat.eq_zero_of_not_pos hpos]
      · exact hb.zero i d' hd' hik
  · obtain ⟨dk, hdk⟩ := hb.buffers.get hk
    obtain ⟨f, rest, p, rfl, -, hover, hend⟩ := hb.left hpos dk hdk
    refine ⟨k, dk, f, rest, p, if_pos hpos, (hne hpos).symm, ?_, rfl, hover, hend⟩
    rw [List.getElem?_set_ne (hne hpos)]
    exact hdk

theorem Behind.listening (hb : Behind base s.mem s.m_RecvBuf k left todo) (hd : s.m_RecvBuf[b]? = some d) (hbase : 0 < base)
    (honline : s.m_bOnline = true) (hposted : s.posted = []) (hplace : s.m_rPostIndex = b) (hk : k < 4)
    (hne : left > 0 → b ≠ k) (hring : left > 0 → b = 3 → k = 2) :
    Listening base (s.store b (d.postRecv (leftPlace k left)).1 (d.postRecv (leftPlace k left)).2) b 0 (leftPlace k left) left
      todo := by
  rw [(hb.buffers.place b d hd).postRecv hbase]
  refine ⟨honline, hplace, hb.arrived hd hk hne, ⟨4096, ?_, .inl ⟨rfl, rfl⟩⟩, fun hpos => ?_, fun hpos hb3 => ?_, fun heq => ?_⟩
  · rw [RecvSession.store, hposted]
    simp
  · obtain ⟨dk, hdk⟩ := hb.buffers.get hk
    obtain ⟨f, rest, p, htodo, hle, -⟩ := hb.left hpos dk hdk
    exact ⟨f, rest, htodo, hle⟩
  · rw [leftPlace, if_pos hpos, hring hpos hb3]
  · rw [leftPlace] at heq
    split_ifs at heq with hpos
    exact hne hpos (Option.some.inj heq).symm

/-! ## The first buffer with bytes left over -/

theorem firstExtend_eq (left : Nat) (hb : Bufs base s.m_RecvBuf) (hk : k < 4)
    (hzero : ∀ (i : Nat) d, s.m_RecvBuf[i]? = some d → i ≠ k → d.m_nExtendLen = 0)
    (hlen : ∀ d, s.m_RecvBuf[k]? = some d → d.m_nExtendLen = left) : s.firstExtend = leftPlace k left := by
  rw [RecvSession.firstExtend, leftPlace]
  split_ifs with hpos
  · obtain ⟨d, hd⟩ := hb.get hk
    obtain ⟨hlt, rfl⟩ := List.getElem?_eq_some_iff.1 hd
    refine List.findIdx?_eq_some_iff_getElem.2 ⟨hlt, ?_, fun j hj => ?_⟩
    · rw [decide_eq_true_iff, hlen _ hd]
      exact hpos
    · have hjlt : j < s.m_RecvBuf.length := hj.trans hlt
      have := hzero j _ (List.getElem?_eq_getElem hjlt) (Nat.ne_of_lt hj)
      simp [this]
  · refine List.findIdx?_eq_none_iff.2 fun d hd => ?_
    obtain ⟨i, hi, rfl⟩ := List.mem_iff_getElem.1 hd
    have hget := List.getElem?_eq_getElem hi
    have hnone : s.m_RecvBuf[i].m_nExtendLen = 0 := by
      by_cases hik : i = k
      · subst hik
        rw [hlen _ hget, Nat.eq_zero_of_not_pos hpos]
      · exact hzero i _ hget hik
    simp [hnone]

theorem Behind.firstExtend (hb : Behind base s.mem s.m_RecvBuf k left todo) (hk : k < 4) : s.firstExtend = leftPlace k left :=
  firstExtend_eq left hb.buffers hk hb.zero hb.len

/-- When the session listens, the bytes left over are where they were. -/
theorem Listening.firstExtend {pExtend : Option Nat} {q e : Nat} (hl : Listening base s k q pExtend e todo) :
    s.firstExtend = if e > 0 then pExtend else none := by
  have ha := hl.arrived
  by_cases hpos : e > 0
  · obtain ⟨j, d, f, rest, p, hext, hne, hd, -, hover, -⟩ := ha.left hpos
    have hfirst := firstExtend_eq e ha.buffers (ha.lt_ext j hext)
      (fun i d' hd' hi => ha.zero i d' hd' (.inr fun heq => hi (Option.some.inj (heq.symm.trans hext))))
      (fun d' hd' => by
        rw [hd] at hd'
        cases hd'
        exact hover.len)
    rw [hfirst, leftPlace, if_pos hpos, if_pos hpos, hext]
  · have hzero := Nat.eq_zero_of_not_pos hpos
    have hfirst := firstExtend_eq 0 ha.buffers ha.lt (fun i d' hd' _ => ha.zero i d' hd' (.inl hzero))
      (fun d' hd' => ha.zero k d' hd' (.inl hzero))
    rw [hfirst, if_neg hpos]
    rfl

/-! ## Behind a complete package -/

/-- `ResetRecvFlagInfo` leaves alone what was left over. -/
theorem Behind.resetRecvFlagInfo (hb : Behind base s.mem s.m_RecvBuf k left todo) (n : Int) :
    Behind base s.mem (s.resetRecvFlagInfo n).m_RecvBuf k left todo := by
  have hget (i : Nat) (d' : PackPerData) (hd' : (s.resetRecvFlagInfo n).m_RecvBuf[i]? = some d') :
      ∃ d, s.m_RecvBuf[i]? = some d ∧ (d' = d ∨ d' = { d with m_pPrevPerData := none }) := by
    rw [RecvSession.resetRecvFlagInfo] at hd'
    split_ifs at hd'
    · rw [List.getElem?_mapIdx, Option.map_eq_some_iff] at hd'
      obtain ⟨d, hd, rfl⟩ := hd'
      refine ⟨d, hd, ?_⟩
      split_ifs
      · exact .inr rfl
      · exact .inl rfl
    · exact ⟨d', hd', .inl rfl⟩
  have hlength : (s.resetRecvFlagInfo n).m_RecvBuf.length = 4 := by
    rw [RecvSession.resetRecvFlagInfo]
    split_ifs
    · rw [← hb.buffers.length]
      exact List.length_mapIdx
    · exact hb.buffers.length
  refine ⟨⟨hlength, fun i d' hd' => ?_⟩, fun i d' hd' hne => ?_, fun d' hd' => ?_, fun hpos d' hd' => ?_⟩
  · obtain ⟨d, hd, rfl | rfl⟩ := hget i d' hd'
    · exact hb.buffers.place i _ hd
    · have hat := hb.buffers.place i d hd
      exact ⟨hat.index, hat.frame, hat.nPost, hat.buf, hat.len⟩
  · obtain ⟨d, hd, rfl | rfl⟩ := hget i d' hd'
    · exact hb.zero i _ hd hne
    · exact hb.zero i d hd hne
  · obtain ⟨d, hd, rfl | rfl⟩ := hget k d' hd'
    · exact hb.len _ hd
    · exact hb.len d hd
  · obtain ⟨d, hd, heq⟩ := hget k d' hd'
    obtain ⟨f, rest, p, htodo, hle, hover, hend⟩ := hb.left hpos d hd
    refine ⟨f, rest, p, htodo, hle, ?_, hend⟩
    cases heq with
    | inl heq => exact heq ▸ hover
    | inr heq => exact heq ▸ ⟨hover.pos, hover.len, hover.start, hover.above, hover.lies⟩

/-- The request after a complete package, in a buffer behind the bytes left over. -/
theorem Behind.postAfter (hb : Behind base s.mem s.m_RecvBuf k left todo) (hbase : 0 < base) (honline : s.m_bOnline = true)
    (hposted : s.posted = []) (hk : k < 4) (hb4 : b < 4) (hne : left > 0 → b ≠ k) (hring : left > 0 → b = 3 → k = 2) :
    ∃ s', s.postAfter b (leftPlace k left) = .ok s' ∧ Listening base s' b 0 (leftPlace k left) left todo := by
  have hreset := hb.resetRecvFlagInfo b
  have hmod : (b : Int) % 16 = b := by omega
  have hsame : s.resetRecvFlagInfo b = { s with m_RecvBuf := (s.resetRecvFlagInfo b).m_RecvBuf } := by
    rw [RecvSession.resetRecvFlagInfo]
    split_ifs <;> rfl
  obtain ⟨d, hd⟩ := hreset.buffers.get hb4
  have hlistens : Listening base (RecvSession.store { s.resetRecvFlagInfo b with m_rPostIndex := b } b
      (d.postRecv (leftPlace k left)).1 (d.postRecv (leftPlace k left)).2) b 0 (leftPlace k left) left todo := by
    rw [hsame]
    exact Behind.listening (s := { s with m_RecvBuf := (s.resetRecvFlagInfo b).m_RecvBuf, m_rPostIndex := b }) hreset hd hbase
      honline hposted rfl hk hne hring
  have honline' : (s.resetRecvFlagInfo b).m_bOnline = true := by rw [hsame]; exact honline
  have hlength := hreset.buffers.length
  refine ⟨_, ?_, hlistens⟩
  rw [RecvSession.postAfter, hmod]
  simp only [Int.toNat_natCast, RecvSession.postRecv, honline', if_true, hlength, RecvSession.buf, hd, bind, Except.bind]
  rw [if_neg (by omega)]

/-- The places that `handOut` finds for a request are free. -/
theorem postBehind_listening {i : Int} (hb : Behind base s.mem s.m_RecvBuf k left todo) (hbase : 0 < base)
    (honline : s.m_bOnline = true) (hposted : s.posted = []) (hk : k < 4) (hlast : k = 3 → left > 0 → 2 ≤ i ∧ i ≤ 3) :
    ∃ s' b, postBehind s (leftPlace k left) i true = .ok s' ∧ Listening base s' b 0 (leftPlace k left) left todo := by
  by_cases hpos : left > 0
  · by_cases hk3 : k = 3
    · subst hk3
      obtain ⟨hlow, hhigh⟩ := hlast rfl hpos
      obtain ⟨b, hb'⟩ : ∃ b : Nat, (3 : Int) - i + 1 = b := ⟨(3 - i + 1).toNat, by omega⟩
      obtain ⟨s', hs', hlistens⟩ := hb.postAfter hbase honline hposted hk (b := b) (by omega) (by omega) (by omega)
      refine ⟨s', b, ?_, hlistens⟩
      rw [leftPlace, if_pos hpos] at hs' ⊢
      have hi : i > 0 := by omega
      simp only [postBehind, RecvSession.placeAfter, hb.buffers.length, Nat.reduceAdd, if_true, if_pos hi,
        hb.buffers.resetIndex, bind, Except.bind]
      rw [← hs', ← hb']
      rfl
    · obtain ⟨s', hs', hlistens⟩ := hb.postAfter hbase honline hposted hk (b := k + 1) (by omega) (by omega) (by omega)
      refine ⟨s', k + 1, ?_, hlistens⟩
      rw [leftPlace, if_pos hpos] at hs' ⊢
      have hlen : ¬k + 1 = s.m_RecvBuf.length := by
        rw [hb.buffers.length]
        omega
      simp only [postBehind, RecvSession.placeAfter, if_neg hlen, bind, Except.bind, if_true]
      rw [← hs']
      rfl
  · obtain ⟨s', hs', hlistens⟩ := hb.postAfter hbase honline hposted hk (b := 0) (by omega) (by omega) (by omega)
    refine ⟨s', 0, ?_, hlistens⟩
    rw [leftPlace, if_neg hpos] at hs' ⊢
    simp only [postBehind, RecvSession.placeAfter, bind, Except.bind, if_true]
    rw [← hs']
    rfl

/-- Nothing is posted when the last package is not complete. -/
theorem postBehind_false {i : Int} {n : Option Nat} (hb : Bufs base s.m_RecvBuf) (hlast : n = some 3 → 0 < i) :
    postBehind s n i false = .ok s := by
  cases n with
  | none => rfl
  | some j =>
    by_cases hj : j + 1 = s.m_RecvBuf.length
    · have hi : i > 0 := by
        rw [hb.length] at hj
        exact hlast (congrArg some (by omega))
      simp only [postBehind, RecvSession.placeAfter, if_pos hj, if_pos hi, hb.resetIndex, bind, Except.bind]
      rfl
    · simp only [postBehind, RecvSession.placeAfter, if_neg hj, bind, Except.bind]
      rfl

/-! ## Places of sorted frames -/

section

variable {fs : List MsgFrame}

/-- The first of sorted frames has the least place. -/
theorem head_of_sorted (hs : fs.Pairwise fun a b => a.m_index ≤ b.m_index) (hne : fs ≠ []) :
    ∃ f ∈ fs, (fs.head?.map (·.m_index)).getD (-1) = f.m_index ∧ ∀ f' ∈ fs, f.m_index ≤ f'.m_index := by
  cases fs with
  | nil => exact absurd rfl hne
  | cons f fs =>
    refine ⟨f, List.mem_cons_self, rfl, fun f' hf' => ?_⟩
    cases List.mem_cons.1 hf' with
    | inl heq => rw [heq]
    | inr hin => exact (List.pairwise_cons.1 hs).1 f' hin

/-- The last of sorted frames has the greatest place. -/
theorem last_of_sorted (hs : fs.Pairwise fun a b => a.m_index ≤ b.m_index) (hne : fs ≠ []) :
    ∃ f ∈ fs, (fs.getLast?.map (·.m_index)).getD (-1) = f.m_index ∧ ∀ f' ∈ fs, f'.m_index ≤ f.m_index := by
  rcases List.eq_nil_or_concat fs with rfl | ⟨fs₀, f, rfl⟩
  · exact absurd rfl hne
  · rw [List.concat_eq_append] at hs ⊢
    refine ⟨f, List.mem_append_right _ (List.mem_singleton_self f), by rw [List.getLast?_concat]; rfl, fun f' hf' => ?_⟩
    cases List.mem_append.1 hf' with
    | inl hin => exact (List.pairwise_append.1 hs).2.2 f' hin f (List.mem_singleton_self f)
    | inr heq => rw [List.mem_singleton.1 heq]

theorem RecvHandle.Sorts.sorted_sortMany (hs : h.Sorts) (fs : List MsgFrame) :
    (h.sortMany fs).Pairwise fun a b => a.m_index ≤ b.m_index := by
  rw [RecvHandle.sortMany]
  split_ifs with hlen
  · exact hs.sorted fs
  · cases fs with
    | nil => exact .nil
    | cons f fs =>
      have hnil : fs = [] := List.length_eq_zero_iff.1 (by
        rw [List.length_cons] at hlen
        omega)
      rw [hnil]
      exact List.pairwise_singleton _ _

theorem nextOf_lt (hk : k < 4) (hfs : ∀ f ∈ fs, f.m_index ≤ 3) : nextOf k fs < 4 := by
  rw [nextOf]
  split_ifs with h3
  · dsimp only
    split_ifs with hpos
    · have hle : (fs.head?.map (·.m_index)).getD (-1) ≤ 3 := by
        cases fs with
        | nil => decide
        | cons f fs => exact hfs f List.mem_cons_self
      omega
    · exact hk
  · omega

/-- When the ring goes on from its last buffer, the frames are in the buffers behind the first. -/
theorem nextOf_ne (hs : fs.Pairwise fun a b => a.m_index ≤ b.m_index) (hne : nextOf 3 fs ≠ 3) : ∀ f ∈ fs, 0 < f.m_index := by
  intro f hf
  obtain ⟨f₀, -, hfront, hmin⟩ := head_of_sorted hs (List.ne_nil_of_mem hf)
  rw [nextOf, if_pos rfl] at hne
  dsimp only at hne
  split_ifs at hne with hpos
  · rw [hfront] at hpos
    exact hpos.trans_le (hmin f hf)
  · exact absurd rfl hne

end

/-! ## A pass goes on -/

section

variable {exact : Prop} {gs₀ : List FrameGroup} {now : Int} {pExtend : Option Nat} {q e : Nat} {map : StdMap Int (List MsgFrame)}

theorem Waiting.weaken (hw : Waiting exact m map gs) : Waiting False m map gs := by
  refine ⟨hw.keys, hw.mem, fun g hg => ⟨(hw.begun g hg).ne_nil, ?_⟩, hw.full⟩
  obtain ⟨msgs, hperm, hholds, -⟩ := (hw.begun g hg).holds
  refine ⟨msgs, hperm, hholds.imp fun f msg hf => ⟨hf.key, hf.total, hf.tSrcLen, hf.tDataLen, hf.nDataLen, nofun⟩, nofun⟩

/-- The place that is looked for when the bytes left over are in the last buffer. -/
theorem LastIndexOf.bounds {n : Int} (hsorts : h.Sorts) (hof : LastIndexOf h gs g n) (hg : g.frames ≠ []) :
    ∃ f ∈ g.frames, n = f.m_index ∧ (g.Complete → ∀ f' ∈ g.frames, f'.m_index ≤ n) := by
  have hperm := hsorts.perm_sortMany g.frames
  have hsorted := hsorts.sorted_sortMany g.frames
  have hne : h.sortMany g.frames ≠ [] := fun hnil => hg (List.nil_perm.1 (hnil ▸ hperm))
  cases hof with
  | inl hof =>
    obtain ⟨f, hf, hhead, -⟩ := head_of_sorted hsorted hne
    exact ⟨f, hperm.subset hf, hof.2.trans hhead, fun hc => absurd hc hof.1⟩
  | inr hof =>
    obtain ⟨f, hf, hlast, hmax⟩ := last_of_sorted hsorted hne
    refine ⟨f, hperm.subset hf, hof.2.2.trans hlast, fun _ f' hf' => ?_⟩
    rw [hof.2.2, hlast]
    exact hmax f' (hperm.symm.subset hf')

/-- What does not concern the requests. -/
theorem Listening.congr {q' : List RecvPackage} (hl : Listening base s k q pExtend e todo) :
    Listening base { s with m_mapFrames := map, m_recvQueue := q' } k q pExtend e todo :=
  ⟨hl.online, hl.place, hl.arrived, hl.posted, hl.left_le, hl.ring, hl.ne⟩

/-- Packages are handed out while a request is out already. -/
theorem Listening.deliver (now : Int) (hl : Listening base s k q pExtend e todo) (hw : Waiting False s.mem s.m_mapFrames gs)
    (hsized : ∀ g ∈ gs, g.pkg.Sized) (hsorts : h.Sorts)
    (hlast : e > 0 → pExtend = some 3 → ∀ g ∈ gs, ∀ n, LastIndexOf h gs g n → 0 < n) :
    ∃ s', s.deliver h now false = .ok s' ∧ Listening base s' k q pExtend e todo := by
  by_cases hsome : ∃ g ∈ gs, g.Complete
  · obtain ⟨left, map', queue, i, hout, heq⟩ := handOut_groups (b := false) now hw hsome hsized hsorts fun _ h => h.elim
    rw [deliver_some hw hsome, heq]
    refine ⟨_, postBehind_false hl.arrived.buffers fun hext => ?_, hl.congr⟩
    have hlen := hl.arrived.buffers.length
    obtain ⟨g, hg, hof⟩ := hout.last (by rw [hext, hlen]; rfl)
    rw [hl.firstExtend] at hext
    split_ifs at hext with hpos
    exact hlast hpos hext g hg i hof
  · exact ⟨s, deliver_none hw fun g hg hc => hsome ⟨g, hg, hc⟩, hl⟩

/-- The last package is complete: a request is posted behind it. -/
theorem complete_listening (now : Int) (hw : Waiting False s.mem s.m_mapFrames (gs₀ ++ [g])) (hc : g.Complete)
    (hsized : ∀ g' ∈ gs₀ ++ [g], g'.pkg.Sized) (hsorts : h.Sorts) (hb : Behind base s.mem s.m_RecvBuf k left todo)
    (hbase : 0 < base) (honline : s.m_bOnline = true) (hposted : s.posted = []) (hk : k < 4)
    (hplaces : ∀ g' ∈ gs₀ ++ [g], ∀ f ∈ g'.frames, f.m_index ≤ 3)
    (hlast : k = 3 → left > 0 → ∀ g' ∈ gs₀ ++ [g], ∃ f ∈ g'.frames, 2 ≤ f.m_index) :
    ∃ s' b, (do
        let r ← s.goOn h k g.key false
        r.1.deliver h now r.2) = .ok s' ∧ Listening base s' b 0 (leftPlace k left) left todo := by
  have hg : g ∈ gs₀ ++ [g] := List.mem_append_right _ (List.mem_singleton_self g)
  have hfull := hw.full_of_concat
  rw [goOn_complete hw hg hc]
  dsimp only [bind, Except.bind]
  have hw₁ : Waiting False { s with m_rPostIndex := 0 }.mem { s with m_rPostIndex := 0 }.m_mapFrames (gs₀ ++ [g]) := hw
  obtain ⟨left', map', queue, i, hout, heq⟩ := handOut_groups (b := true) now hw₁ ⟨g, hg, hc⟩ hsized hsorts fun _ h => h.elim
  have hb₁ : Behind base { s with m_rPostIndex := 0 }.mem { s with m_rPostIndex := 0 }.m_RecvBuf k left todo := hb
  rw [deliver_some hw₁ ⟨g, hg, hc⟩, heq, hb₁.firstExtend hk]
  refine postBehind_listening hb hbase honline hposted hk fun hk3 hpos => ?_
  have hext := hb₁.firstExtend hk
  obtain ⟨g', hg', hof⟩ := hout.last (by
    rw [hext, leftPlace, if_pos hpos, hk3]
    exact congrArg some hb.buffers.length.symm)
  have hc' : g'.Complete := by
    cases List.mem_append.1 hg' with
    | inl hin => exact hfull g' hin
    | inr heq => exact List.mem_singleton.1 heq ▸ hc
  obtain ⟨f, hf, rfl, hmax⟩ := hof.bounds hsorts (hw.begun g' hg').ne_nil
  obtain ⟨f', hf', hlow⟩ := hlast hk3 hpos g' hg'
  exact ⟨hlow.trans (hmax hc' f' hf'), hplaces g' hg' f hf⟩

/-- The last package is not complete: a request is posted in the next buffer of the ring, and what is
complete is handed out. -/
theorem incomplete_listening (now : Int) (hw : Waiting False s.mem s.m_mapFrames (gs₀ ++ [g])) (hc : ¬g.Complete)
    (hsized : ∀ g' ∈ gs₀ ++ [g], g'.pkg.Sized) (hsorts : h.Sorts) (hb : Behind base s.mem s.m_RecvBuf k left todo)
    (hbase : 0 < base) (honline : s.m_bOnline = true) (hposted : s.posted = []) (hk : k < 4) (hplace : s.m_rPostIndex = k)
    (hplaces : ∀ f ∈ g.frames, f.m_index ≤ 3) (hne : left > 0 → nextOf k (h.sort g.frames) ≠ k)
    (hlast : k = 3 → left > 0 → ∀ g' ∈ gs₀, ∃ f ∈ g'.frames, 2 ≤ f.m_index) :
    ∃ s₁ s', s.goOn h k g.key false = .ok (s₁, false) ∧ s₁.m_mapFrames = s.m_mapFrames.set g.key (h.sort g.frames) ∧
      Listening base s₁ (nextOf k (h.sort g.frames)) 0 (leftPlace k left) left todo ∧ s₁.deliver h now false = .ok s' ∧
      Listening base s' (nextOf k (h.sort g.frames)) 0 (leftPlace k left) left todo := by
  have hg : g ∈ gs₀ ++ [g] := List.mem_append_right _ (List.mem_singleton_self g)
  have hfull := hw.full_of_concat
  have hsorted := hsorts.sorted g.frames
  have hperm := hsorts.perm g.frames
  have hlen := hb.buffers.length
  have hnext : goNext h s k g = { s with
      m_mapFrames := s.m_mapFrames.set g.key (h.sort g.frames), m_rPostIndex := nextOf k (h.sort g.frames) } := by
    rw [goNext, RecvSession.nextPlace, nextOf]
    dsimp only
    rw [hplace, hlen, hb.buffers.resetIndex]
    by_cases hk3 : k = 3
    · subst hk3
      rw [if_pos rfl, if_pos rfl]
      split_ifs
      · rfl
      · rw [← hplace]
    · rw [if_neg (by omega), if_neg hk3, Nat.mod_eq_of_lt (by omega)]
  have hb4 := nextOf_lt hk fun f hf => hplaces f (hperm.subset hf)
  obtain ⟨d, hd⟩ := hb.buffers.get hk
  obtain ⟨d', hd'⟩ := hb.buffers.get hb4
  have hring : left > 0 → nextOf k (h.sort g.frames) = 3 → k = 2 := by
    intro hpos h3
    have hk3 : k ≠ 3 := fun hk3 => hne hpos (h3.trans hk3.symm)
    rw [nextOf, if_neg hk3] at h3
    omega
  have hl : Listening base (RecvSession.store (goNext h s k g) (nextOf k (h.sort g.frames)) (d'.postRecv (leftPlace k left)).1
      (d'.postRecv (leftPlace k left)).2) (nextOf k (h.sort g.frames)) 0 (leftPlace k left) left todo := by
    rw [hnext]
    exact Behind.listening (s := { s with
      m_mapFrames := s.m_mapFrames.set g.key (h.sort g.frames), m_rPostIndex := nextOf k (h.sort g.frames) })
      hb hd' hbase honline hposted rfl hk hne hring
  have hgo : s.goOn h k g.key false = .ok (RecvSession.store (goNext h s k g) (nextOf k (h.sort g.frames))
      (d'.postRecv (leftPlace k left)).1 (d'.postRecv (leftPlace k left)).2, false) := by
    rw [goOn_incomplete hw hg hc, hnext]
    simp only [RecvSession.buf, hd, hd', bind, Except.bind, hb.len d hd, leftPlace]
  have hw₁ := hw.resort hperm False.elim
  obtain ⟨s', hs', hl'⟩ := hl.deliver now (by
      rw [hnext]
      exact hw₁) (fun g' hg' => by
      cases List.mem_append.1 hg' with
      | inl hin => exact hsized g' (List.mem_append_left _ hin)
      | inr heq =>
        rw [List.mem_singleton.1 heq]
        exact hsized g hg) hsorts fun hpos hext g' hg' n hof => by
    have hk3 : k = 3 := by
      rw [leftPlace, if_pos hpos] at hext
      exact Option.some.inj hext
    subst hk3
    obtain ⟨f, hf, rfl, hmax⟩ := hof.bounds hsorts (hw₁.begun g' hg').ne_nil
    cases List.mem_append.1 hg' with
    | inl hin =>
      obtain ⟨f', hf', hlow⟩ := hlast rfl hpos g' hin
      have := hmax (hfull g' hin) f' hf'
      omega
    | inr heq =>
      rw [List.mem_singleton.1 heq] at hf
      exact nextOf_ne hsorted (hne hpos) f hf
  refine ⟨_, s', hgo, ?_, hl, hs', hl'⟩
  rw [hnext]
  rfl

end
