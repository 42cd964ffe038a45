/-
How the frames of packages are put together again (Net/SocketSession.cpp).

The frames in `m_mapFrames` are those of one package after the other, of which
only the last may be incomplete (`Waiting`). A frame joins that one or begins
the next (`Waiting.enter`), as long as no two packages have one timestamp.
The complete ones are then found, leave the map and are handed out, in the
order of their timestamps (`handOut_groups`).
-/
import XFramework.Net.RecvSession

open Bytes Fallible

namespace NetPackage

/-- The key of its frames. -/
def stamp (p : NetPackage) : Int := p.m_timestamp.toInt

def data (p : NetPackage) : List UInt8 := p.m_pData.getD []

/-- There are data when there is a length. -/
def Sized (p : NetPackage) : Prop := p.data.length = p.m_len

instance : DecidablePred Sized := fun p => inferInstanceAs (Decidable (p.data.length = p.m_len))

/-- What the receiver is to hand out: nothing for an empty package. -/
def delivered (p : NetPackage) : Option RecvPackage := if p.m_len > 0 then some ⟨p.data, p.m_len⟩ else none

theorem flatMap_chunks (l : List UInt8) (k : Nat) :
    (List.range k).flatMap (fun c => (l.drop (1000 * c)).take 1000) = l.take (1000 * k) := by
  induction k with
  | zero => simp
  | succ k ih => rw [List.range_succ, List.flatMap_append, ih, List.flatMap_singleton, Nat.mul_succ, List.take_add]

/-- The chunks of a package are its data. -/
theorem flatMap_messages {p : NetPackage} (h : p.Sized) : p.messages.flatMap Message.chunk = p.data := by
  rw [messages, List.flatMap_map, flatMap_chunks]
  refine List.take_of_length_le ?_
  have hlen : (p.m_pData.getD []).length = p.m_len := h
  rw [hlen, chunkCount]
  omega

theorem length_messages (p : NetPackage) : p.messages.length = p.chunkCount := by
  rw [messages, List.length_map, List.length_range]

theorem sum_messages {p : NetPackage} (h : p.Sized) : (p.messages.map fun g => g.chunk.length).sum = p.m_len := by
  rw [← h, ← flatMap_messages h, List.length_flatMap]

/-- The first message of a package and no other has the number 0. -/
theorem index_messages {p : NetPackage} {i : Nat} {g : Message} (h : p.messages[i]? = some g) : g.index = i := by
  obtain ⟨hi, rfl⟩ := List.getElem?_eq_some_iff.1 h
  simp [messages]

end NetPackage

/-- The head of the frame says whose message it is; with `exact` its data are those of the message. -/
structure Holds (exact : Prop) (m : Mem) (f : MsgFrame) (g : Message) : Prop where
  key : frameKey m f.m_buf = g.pkg.stamp
  total : totalFrames m f = g.total
  tSrcLen : (MsgHead.load m f.m_buf).tSrcLen.toNat = g.pkg.m_len
  tDataLen : (MsgHead.load m f.m_buf).tDataLen.toNat = g.pkg.m_len
  nDataLen : (MsgHead.load m f.m_buf).nDataLen.toNat ≤ g.chunk.length
  data : exact → read m (f.m_buf + 24) (MsgHead.load m f.m_buf).nDataLen.toNat = g.chunk

/-- A package and its frames in `m_mapFrames`. -/
structure FrameGroup where
  pkg : NetPackage
  frames : List MsgFrame

namespace FrameGroup

def key (g : FrameGroup) : Int := g.pkg.stamp

def entry (g : FrameGroup) : Int × List MsgFrame := (g.key, g.frames)

def Complete (g : FrameGroup) : Prop := g.frames.length = g.pkg.chunkCount

instance : DecidablePred Complete := fun g => inferInstanceAs (Decidable (g.frames.length = g.pkg.chunkCount))

/-- The messages yet to come. -/
def missing (g : FrameGroup) : List Message := g.pkg.messages.drop g.frames.length

/-- The frames hold the first messages of the package, with `exact` in their order. -/
structure Begun (exact : Prop) (m : Mem) (g : FrameGroup) : Prop where
  ne_nil : g.frames ≠ []
  holds : ∃ msgs, msgs.Perm (g.pkg.messages.take g.frames.length) ∧ List.Forall₂ (Holds exact m) g.frames msgs ∧
    (exact → msgs = g.pkg.messages.take g.frames.length)

/-- The groups in the order of their keys. -/
def inOrder (gs : List FrameGroup) : List FrameGroup := gs.insertionSort fun a b => a.key ≤ b.key

end FrameGroup

/-- The messages yet to come of the last package. -/
def ahead (gs : List FrameGroup) : List Message := (gs.getLast?.map FrameGroup.missing).getD []

/-- The map holds these packages, and only the last one may be incomplete. -/
structure Waiting (exact : Prop) (m : Mem) (map : StdMap Int (List MsgFrame)) (gs : List FrameGroup) : Prop where
  keys : (gs.map FrameGroup.key).Nodup
  mem : ∀ x, x ∈ map ↔ ∃ g ∈ gs, g.entry = x
  begun : ∀ g ∈ gs, g.Begun exact m
  full : ∀ g ∈ gs.dropLast, g.Complete

variable {exact : Prop} {m m' : Mem} {map : StdMap Int (List MsgFrame)} {gs : List FrameGroup} {g : FrameGroup} {f : MsgFrame}
  {msg : Message} {rest : List Message} {ps : List NetPackage} {s : RecvSession} {h : RecvHandle} {now : Int}

/-! ## Frames -/

theorem FrameGroup.Begun.length_le (hg : g.Begun exact m) : g.frames.length ≤ g.pkg.chunkCount := by
  obtain ⟨msgs, hperm, hholds, -⟩ := hg.holds
  have := hholds.length_eq
  rw [hperm.length_eq, List.length_take, NetPackage.length_messages] at this
  omega

/-- Every frame holds a message of the package. -/
theorem FrameGroup.Begun.frame (hg : g.Begun exact m) (hf : f ∈ g.frames) : ∃ msg ∈ g.pkg.messages, Holds exact m f msg := by
  obtain ⟨msgs, hperm, hholds, -⟩ := hg.holds
  obtain ⟨i, hi, rfl⟩ := List.mem_iff_getElem.1 hf
  have hi' : i < msgs.length := hholds.length_eq ▸ hi
  refine ⟨msgs[i], List.mem_of_mem_take (hperm.subset (List.getElem_mem hi')), ?_⟩
  exact (List.forall₂_iff_get.1 hholds).2 i hi hi'

theorem FrameGroup.Begun.frame_key (hg : g.Begun exact m) (hf : f ∈ g.frames) : frameKey m f.m_buf = g.key := by
  obtain ⟨msg, hmsg, hholds⟩ := hg.frame hf
  rw [hholds.key, NetPackage.pkg_of_mem hmsg]
  rfl

theorem FrameGroup.Begun.frame_total (hg : g.Begun exact m) (hf : f ∈ g.frames) : totalFrames m f = g.pkg.chunkCount := by
  obtain ⟨msg, hmsg, hholds⟩ := hg.frame hf
  rw [hholds.total, (NetPackage.total_of_mem hmsg).1]

theorem FrameGroup.Begun.isComplete (hg : g.Begun exact m) : RecvSession.isComplete m g.frames = decide g.Complete := by
  cases hf : g.frames with
  | nil => exact absurd hf hg.ne_nil
  | cons f fs =>
    have htotal := hg.frame_total (f := f) (by rw [hf]; exact List.mem_cons_self)
    simp only [RecvSession.isComplete, htotal, FrameGroup.Complete, hf]

/-- The frames in another order. -/
theorem FrameGroup.Begun.perm {fs : List MsgFrame} (hg : g.Begun exact m) (hperm : fs.Perm g.frames) (hsame : exact → fs = g.frames) :
    FrameGroup.Begun exact m { g with frames := fs } := by
  obtain ⟨msgs, hmsgs, hholds, hexact⟩ := hg.holds
  refine ⟨fun hnil => hg.ne_nil (List.nil_perm.1 (hnil ▸ hperm)), ?_⟩
  dsimp only
  by_cases he : exact
  · rw [hsame he]
    exact ⟨msgs, hmsgs, hholds, hexact⟩
  · obtain ⟨msgs', hholds', hmsgs'⟩ := List.perm_comp_forall₂ hperm hholds
    refine ⟨msgs', ?_, hholds', fun h => absurd h he⟩
    rw [hperm.length_eq]
    exact hmsgs'.trans hmsgs

/-! ## Entering a frame -/

/-- Every group is one of those before, or one of its frames is new and the others were there before. -/
def Grown (gs gs' : List FrameGroup) (fs : List MsgFrame) : Prop :=
  ∀ g' ∈ gs', g' ∈ gs ∨ (∃ f ∈ g'.frames, f ∈ fs) ∧ ∀ f ∈ g'.frames, f ∈ fs ∨ ∃ g ∈ gs, f ∈ g.frames

theorem Grown.trans {gs₁ gs₂ gs₃ : List FrameGroup} {fs fs' : List MsgFrame} (h₁ : Grown gs₁ gs₂ fs) (h₂ : Grown gs₂ gs₃ fs') :
    Grown gs₁ gs₃ (fs ++ fs') := by
  intro g hg
  cases h₂ g hg with
  | inl hg₂ =>
    refine (h₁ g hg₂).imp_right fun ⟨⟨f, hf, hnew⟩, hall⟩ => ⟨⟨f, hf, List.mem_append_left _ hnew⟩, fun f' hf' => ?_⟩
    exact (hall f' hf').imp_left (List.mem_append_left _)
  | inr hnew =>
    obtain ⟨⟨f, hf, hin⟩, hall⟩ := hnew
    refine .inr ⟨⟨f, hf, List.mem_append_right _ hin⟩, fun f' hf' => ?_⟩
    cases hall f' hf' with
    | inl h => exact .inl (List.mem_append_right _ h)
    | inr h =>
      obtain ⟨g₂, hg₂, hin₂⟩ := h
      cases h₁ g₂ hg₂ with
      | inl hg₁ => exact .inr ⟨g₂, hg₁, hin₂⟩
      | inr hnew₂ => exact (hnew₂.2 f' hin₂).imp_left (List.mem_append_left _)

theorem ahead_concat (gs : List FrameGroup) (g : FrameGroup) : ahead (gs ++ [g]) = g.missing := by
  rw [ahead, List.getLast?_concat]
  rfl

theorem ahead_nil : ahead [] = [] := rfl

theorem missing_eq_nil (hg : g.Begun exact m) : g.missing = [] ↔ g.Complete := by
  have := hg.length_le
  rw [FrameGroup.missing, List.drop_eq_nil_iff, NetPackage.length_messages, FrameGroup.Complete]
  omega

/-- The entry of a package. -/
theorem Waiting.find? (hw : Waiting exact m map gs) (hg : g ∈ gs) : map.find? g.key = some g.frames :=
  StdMap.find?_eq_some.2 ((hw.mem _).2 ⟨g, hg, rfl⟩)

theorem Waiting.find?_none {k : Int} (hw : Waiting exact m map gs) (hk : k ∉ gs.map FrameGroup.key) : map.find? k = none := by
  refine StdMap.find?_eq_none.2 fun x hx => ?_
  obtain ⟨g, hg, rfl⟩ := (hw.mem x).1 hx
  exact fun heq => hk (heq ▸ List.mem_map_of_mem hg)

/-- The first frame of a package. -/
theorem Waiting.enter_first {p : NetPackage} (hw : Waiting exact m map gs) (hfull : ∀ g ∈ gs, g.Complete)
    (hfirst : p.messages[0]? = some msg) (hf : Holds exact m f msg) (hkey : p.stamp ∉ gs.map FrameGroup.key) :
    Waiting exact m (RecvSession.enterIn m map f) (gs ++ [⟨p, [f]⟩]) := by
  have hpkg : msg.pkg = p := NetPackage.pkg_of_mem (List.mem_of_getElem? hfirst)
  have hframe : frameKey m f.m_buf = p.stamp := by rw [hf.key, hpkg]
  have hnone := hw.find?_none hkey
  have henter : RecvSession.enterIn m map f = map.insert p.stamp [f] := by
    simp only [RecvSession.enterIn, hframe, hnone]
  refine ⟨?_, fun x => ?_, fun g hg => ?_, ?_⟩
  · rw [List.map_append]
    exact List.nodup_append'.2 ⟨hw.keys, List.nodup_singleton _, List.disjoint_singleton.2 hkey⟩
  · rw [henter, StdMap.mem_insert_new (StdMap.find?_eq_none.1 hnone), hw.mem x]
    simp only [List.mem_append, List.mem_singleton]
    refine ⟨?_, ?_⟩
    · rintro (⟨g, hg, hx⟩ | hx)
      · exact ⟨g, .inl hg, hx⟩
      · exact ⟨_, .inr rfl, hx.symm⟩
    · rintro ⟨g, hg | rfl, hx⟩
      · exact .inl ⟨g, hg, hx⟩
      · exact .inr hx.symm
  · rcases List.mem_append.1 hg with hg | hg
    · exact hw.begun g hg
    · rw [List.mem_singleton.1 hg]
      have htake : p.messages.take 1 = [msg] := by rw [List.take_add_one, hfirst]; rfl
      exact ⟨List.cons_ne_nil _ _, [msg], .of_eq htake.symm, .cons hf .nil, fun _ => htake.symm⟩
  · rw [List.dropLast_concat]
    exact hfull

/-- A further frame of the last package. -/
theorem Waiting.enter_next (hw : Waiting exact m map (gs ++ [g]))
    (hnext : g.pkg.messages[g.frames.length]? = some msg) (hf : Holds exact m f msg) :
    Waiting exact m (RecvSession.enterIn m map f) (gs ++ [{ g with frames := g.frames ++ [f] }]) := by
  have hmem : g ∈ gs ++ [g] := List.mem_append_right _ (List.mem_singleton_self g)
  have hpkg : msg.pkg = g.pkg := NetPackage.pkg_of_mem (List.mem_of_getElem? hnext)
  have hframe : frameKey m f.m_buf = g.key := by
    rw [hf.key, hpkg]
    rfl
  have hfind := hw.find? hmem
  have henter : RecvSession.enterIn m map f = map.set g.key (g.frames ++ [f]) := by
    simp only [RecvSession.enterIn, hframe, hfind]
  have hkeys := hw.keys
  rw [List.map_append, List.map_singleton] at hkeys
  refine ⟨?_, fun x => ?_, fun g' hg' => ?_, ?_⟩
  · rw [List.map_append]
    exact hkeys
  · rw [henter, StdMap.mem_set, hw.mem x]
    simp only [List.mem_append, List.mem_singleton]
    refine ⟨?_, ?_⟩
    · rintro (⟨⟨g', hg' | rfl, hx⟩, hne⟩ | ⟨hx, -⟩)
      · exact ⟨g', .inl hg', hx⟩
      · exact absurd (hx ▸ rfl) hne
      · exact ⟨_, .inr rfl, hx.symm⟩
    · rintro ⟨g', hg' | rfl, hx⟩
      · have hne : g'.key ≠ g.key := fun heq =>
          (List.nodup_append'.1 hkeys).2.2 (heq ▸ List.mem_map_of_mem hg') (List.mem_singleton_self _)
        exact .inl ⟨⟨g', .inl hg', hx⟩, hx ▸ hne⟩
      · exact .inr ⟨hx.symm, g.frames, StdMap.find?_eq_some.1 hfind⟩
  · rcases List.mem_append.1 hg' with hg' | hg'
    · exact hw.begun g' (List.mem_append_left _ hg')
    · rw [List.mem_singleton.1 hg']
      obtain ⟨msgs, hperm, hholds, hexact⟩ := (hw.begun g hmem).holds
      have htake : g.pkg.messages.take (g.frames ++ [f]).length = g.pkg.messages.take g.frames.length ++ [msg] := by
        rw [List.length_append, List.length_singleton, List.take_add_one, hnext]
        rfl
      refine ⟨List.append_ne_nil_of_right_ne_nil _ (List.cons_ne_nil _ _), msgs ++ [msg], ?_,
        List.rel_append hholds (.cons hf .nil), fun he => ?_⟩
      · dsimp only
        rw [htake]
        exact hperm.append_right _
      · dsimp only
        rw [htake, hexact he]
  · rw [List.dropLast_concat]
    have := hw.full
    rwa [List.dropLast_concat] at this

/-- No package is begun when none of the messages to come belongs to one. -/
theorem Waiting.full_of_ahead (hw : Waiting exact m map gs) (hahead : ahead gs = []) : ∀ g ∈ gs, g.Complete := by
  rcases List.eq_nil_or_concat gs with rfl | ⟨gs₀, g, rfl⟩
  · nofun
  · intro g' hg'
    rw [List.concat_eq_append] at hg' hw hahead
    rcases List.mem_append.1 hg' with hg' | hg'
    · exact hw.full g' (by rwa [List.dropLast_concat])
    · rw [List.mem_singleton.1 hg']
      rw [ahead_concat] at hahead
      exact (missing_eq_nil (hw.begun g (List.mem_append_right _ (List.mem_singleton_self g)))).1 hahead

/-- The message that is next is the first one of the next package. -/
theorem first_message (hrest : ps.flatMap NetPackage.messages = msg :: rest) :
    ∃ p ps', ps = p :: ps' ∧ p.messages[0]? = some msg ∧ p.messages.drop 1 ++ ps'.flatMap NetPackage.messages = rest := by
  cases ps with
  | nil => cases hrest
  | cons p ps =>
    obtain ⟨msg', tail, hmsgs⟩ := List.exists_cons_of_ne_nil p.messages_ne_nil
    rw [List.flatMap_cons, hmsgs, List.cons_append] at hrest
    injection hrest with hhead htail
    subst hhead
    exact ⟨p, ps, rfl, by rw [hmsgs]; rfl, by rw [hmsgs]; exact htail⟩

/-- The message that is next is the next one of the package that is begun. -/
theorem next_message {tail : List Message} (hahead : g.missing ≠ []) (hrest : g.missing ++ tail = msg :: rest) :
    g.pkg.messages[g.frames.length]? = some msg ∧ g.pkg.messages.drop (g.frames.length + 1) ++ tail = rest := by
  have hlt : g.frames.length < g.pkg.messages.length := by
    by_contra hle
    exact hahead (List.drop_eq_nil_of_le (by omega))
  rw [FrameGroup.missing, List.drop_eq_getElem_cons hlt, List.cons_append] at hrest
  injection hrest with hhead htail
  exact ⟨by rw [List.getElem?_eq_getElem hlt, hhead], htail⟩

/-- The frame of the next message of the stream. The packages of the groups and those to come are the
same as before. -/
theorem Waiting.enter (hw : Waiting exact m map gs)
    (hrest : ahead gs ++ ps.flatMap NetPackage.messages = msg :: rest) (hf : Holds exact m f msg)
    (hkey : msg.index = 0 → msg.pkg.stamp ∉ gs.map FrameGroup.key) :
    ∃ gs' ps', Waiting exact m (RecvSession.enterIn m map f) gs' ∧ ahead gs' ++ ps'.flatMap NetPackage.messages = rest ∧
      gs'.map FrameGroup.pkg ++ ps' = gs.map FrameGroup.pkg ++ ps ∧
      gs'.map FrameGroup.key = gs.map FrameGroup.key ++ (if msg.index = 0 then [msg.pkg.stamp] else []) ∧ Grown gs gs' [f] ∧
      ∃ g ∈ gs'.getLast?, g.pkg = msg.pkg ∧
        g.frames = if msg.index = 0 then [f] else ((gs.getLast?.map FrameGroup.frames).getD []) ++ [f] := by
  by_cases hahead : ahead gs = []
  · rw [hahead, List.nil_append] at hrest
    obtain ⟨p, ps, rfl, hfirst, htail⟩ := first_message hrest
    have hindex : msg.index = 0 := NetPackage.index_messages hfirst
    have hpkg : msg.pkg = p := NetPackage.pkg_of_mem (List.mem_of_getElem? hfirst)
    refine ⟨gs ++ [⟨p, [f]⟩], ps, hw.enter_first (hw.full_of_ahead hahead) hfirst hf (hpkg ▸ hkey hindex), ?_, ?_, ?_,
      fun g' hg' => ?_, ⟨p, [f]⟩, List.getLast?_concat, hpkg.symm, ?_⟩
    · rw [ahead_concat]
      exact htail
    · rw [List.map_append, List.append_assoc]
      rfl
    · rw [if_pos hindex, List.map_append, hpkg]
      rfl
    · refine (List.mem_append.1 hg').imp_right fun hg' => ?_
      rw [List.mem_singleton.1 hg']
      exact ⟨⟨f, List.mem_singleton_self f, List.mem_singleton_self f⟩, fun f' hf' => .inl hf'⟩
    · rw [if_pos hindex]
  · rcases List.eq_nil_or_concat gs with rfl | ⟨gs₀, g, rfl⟩
    · exact absurd ahead_nil hahead
    · rw [List.concat_eq_append] at hw hahead hrest ⊢
      rw [ahead_concat] at hahead hrest
      obtain ⟨hnext, htail⟩ := next_message hahead hrest
      have hne : g.frames ≠ [] := (hw.begun g (List.mem_append_right _ (List.mem_singleton_self g))).ne_nil
      have hindex : msg.index ≠ 0 := by
        rw [NetPackage.index_messages hnext]
        exact fun hnil => hne (List.length_eq_zero_iff.1 hnil)
      refine ⟨gs₀ ++ [{ g with frames := g.frames ++ [f] }], ps, hw.enter_next hnext hf, ?_, ?_, ?_, fun g' hg' => ?_,
        _, List.getLast?_concat, (NetPackage.pkg_of_mem (List.mem_of_getElem? hnext)).symm, ?_⟩
      · rw [ahead_concat, FrameGroup.missing, List.length_append, List.length_singleton]
        exact htail
      · rw [List.map_append, List.map_append]
        rfl
      · rw [if_neg hindex, List.append_nil, List.map_append, List.map_append]
        rfl
      · rcases List.mem_append.1 hg' with hg' | hg'
        · exact .inl (List.mem_append_left _ hg')
        · rw [List.mem_singleton.1 hg']
          refine .inr ⟨⟨f, List.mem_append_right _ (List.mem_singleton_self f), List.mem_singleton_self f⟩, fun f' hf' => ?_⟩
          exact (List.mem_append.1 hf').symm.imp_right fun hf' => ⟨g, List.mem_append_right _ (List.mem_singleton_self g), hf'⟩
      · rw [if_neg hindex, List.getLast?_concat]
        rfl

/-! ## Handing out -/

namespace FrameGroup

theorem perm_inOrder (gs : List FrameGroup) : (inOrder gs).Perm gs := List.perm_insertionSort _ _

theorem mem_inOrder : g ∈ inOrder gs ↔ g ∈ gs := (perm_inOrder gs).mem_iff

theorem sorted_inOrder (gs : List FrameGroup) : (inOrder gs).Pairwise fun a b => a.key ≤ b.key := List.pairwise_insertionSort _ _

end FrameGroup

theorem Waiting.entries (hw : Waiting exact m map gs) : map.entries = (FrameGroup.inOrder gs).map FrameGroup.entry := by
  have hkeys : ((FrameGroup.inOrder gs).map FrameGroup.key).Nodup :=
    ((FrameGroup.perm_inOrder gs).map FrameGroup.key).nodup_iff.2 hw.keys
  have hlt : ((FrameGroup.inOrder gs).map FrameGroup.entry).Pairwise fun a b => a.1 < b.1 := by
    refine List.pairwise_map.2 (((FrameGroup.sorted_inOrder gs).and (List.pairwise_map.1 hkeys)).imp fun hab => ?_)
    exact lt_of_le_of_ne hab.1 hab.2
  have hperm : map.entries.Perm ((FrameGroup.inOrder gs).map FrameGroup.entry) := by
    refine (List.perm_ext_iff_of_nodup map.nodup_entries (hlt.imp fun hab => ?_)).2 fun x => ?_
    · exact fun heq => absurd hab (heq ▸ lt_irrefl _)
    · rw [StdMap.mem_entries, hw.mem x, List.mem_map]
      exact exists_congr fun g => and_congr_left fun _ => FrameGroup.mem_inOrder.symm
  exact hperm.eq_of_pairwise (fun _ _ _ _ hab hba => absurd hab (not_lt.2 hba.le)) map.sorted hlt

/-- Every frame is found under its own key. -/
theorem FrameGroup.Begun.keys_agree (hg : g.Begun exact m) : (g.frames.any fun f => frameKey m f.m_buf ≠ g.key) = false := by
  rw [List.any_eq_false]
  intro f hf
  simp [hg.frame_key hf]

theorem hasComplete_groups (hg : ∀ g ∈ gs, g.Begun exact m) :
    RecvSession.hasComplete m (gs.map FrameGroup.entry) = .ok (gs.any fun g => decide g.Complete) := by
  induction gs with
  | nil => rfl
  | cons g gs ih =>
    have hbegun := hg g List.mem_cons_self
    have hagree := hbegun.keys_agree
    rw [List.map_cons, FrameGroup.entry, RecvSession.hasComplete, hagree, if_neg Bool.false_ne_true, if_neg hbegun.ne_nil,
      hbegun.isComplete, List.any_cons]
    by_cases hc : g.Complete
    · rw [decide_eq_true hc, if_pos rfl, Bool.true_or]
    · rw [decide_eq_false hc, if_neg Bool.false_ne_true, Bool.false_or, ih fun g' hg' => hg g' (List.mem_cons_of_mem _ hg')]

theorem completeEntries_groups (hg : ∀ g ∈ gs, g.Begun exact m) :
    RecvSession.completeEntries m (gs.map FrameGroup.entry) =
      .ok ((gs.filter fun g => decide g.Complete).map FrameGroup.frames) := by
  induction gs with
  | nil => rfl
  | cons g gs ih =>
    have hbegun := hg g List.mem_cons_self
    have hagree := hbegun.keys_agree
    rw [List.map_cons, FrameGroup.entry, RecvSession.completeEntries, if_neg hbegun.ne_nil, hbegun.isComplete, hagree,
      if_neg Bool.false_ne_true, ih fun g' hg' => hg g' (List.mem_cons_of_mem _ hg')]
    by_cases hc : g.Complete
    · rw [decide_eq_true hc, if_pos rfl, List.filter_cons_of_pos (by simpa using hc)]
      rfl
    · rw [decide_eq_false hc, if_neg Bool.false_ne_true, List.filter_cons_of_neg (by simpa using hc)]

/-- The groups that are handed out leave the map. -/
theorem eraseEntries_groups (hg : ∀ g ∈ gs, g.Begun exact s.mem) (hkeys : (gs.map FrameGroup.key).Nodup)
    (hin : ∀ g ∈ gs, s.m_mapFrames.find? g.key ≠ none) :
    ∃ map', s.eraseEntries (gs.map FrameGroup.frames) = .ok { s with m_mapFrames := map' } ∧
      ∀ x, x ∈ map' ↔ x ∈ s.m_mapFrames ∧ x.1 ∉ gs.map FrameGroup.key := by
  induction gs generalizing s with
  | nil => exact ⟨s.m_mapFrames, rfl, fun x => by simp⟩
  | cons g gs ih =>
    have hbegun := hg g List.mem_cons_self
    obtain ⟨hnotin, hnodup⟩ := List.nodup_cons.1 hkeys
    cases hf : g.frames with
    | nil => exact absurd hf hbegun.ne_nil
    | cons f fs =>
      have hkey := hbegun.frame_key (f := f) (by rw [hf]; exact List.mem_cons_self)
      obtain ⟨fs', hfind⟩ := Option.ne_none_iff_exists'.1 (hin g List.mem_cons_self)
      have hin' : ∀ g' ∈ gs, (s.m_mapFrames.erase g.key).find? g'.key ≠ none := fun g' hg' => by
        have hne : g'.key ≠ g.key := fun heq => hnotin (List.mem_map.2 ⟨g', hg', heq⟩)
        rw [StdMap.find?_erase_ne hne]
        exact hin g' (List.mem_cons_of_mem _ hg')
      obtain ⟨map', herase, hmem⟩ := ih (s := { s with m_mapFrames := s.m_mapFrames.erase g.key })
        (fun g' hg' => hg g' (List.mem_cons_of_mem _ hg')) hnodup hin'
      refine ⟨map', ?_, fun x => ?_⟩
      · rw [List.map_cons, hf, RecvSession.eraseEntries, hkey, hfind]
        exact herase
      · rw [hmem x, StdMap.mem_erase, List.map_cons, List.mem_cons, not_or, and_assoc]

/-- The data of the frames one after the other. -/
theorem setMsgFrames_holds {fs : List MsgFrame} {msgs : List Message} {n : Nat} {d : List UInt8}
    (hf : List.Forall₂ (Holds exact m) fs msgs) (hlen : d.length + (msgs.map fun g => g.chunk.length).sum ≤ n) :
    ∃ data', RecvSession.setMsgFrames m n fs d = .ok data' ∧ (exact → data' = d ++ msgs.flatMap Message.chunk) := by
  induction hf generalizing d with
  | nil => exact ⟨d, rfl, fun _ => by simp⟩
  | @cons f msg fs msgs hhead htail ih =>
    rw [List.map_cons, List.sum_cons] at hlen
    have hle := hhead.nDataLen
    have hfit : ¬(d.length > n ∨ d.length + (MsgHead.load m f.m_buf).nDataLen.toNat > n) := by omega
    obtain ⟨data', hset, hexact⟩ := ih (d := d ++ read m (f.m_buf + 24) (MsgHead.load m f.m_buf).nDataLen.toNat) (by
      rw [List.length_append, length_read]
      omega)
    refine ⟨data', ?_, fun he => ?_⟩
    · rw [RecvSession.setMsgFrames, if_neg hfit]
      exact hset
    · rw [hexact he, hhead.data he, List.flatMap_cons, List.append_assoc]

/-- A session that changes nothing, and finds memory for every package. -/
structure RecvHandle.Works (h : RecvHandle) : Prop where
  alloc : ∀ n, h.alloc n = true
  setPackageInfo : ∀ n k, h.setPackageInfo n k = true
  process : ∀ data, h.process data = some data

theorem RecvHandle.works_plain : RecvHandle.plain.Works := ⟨fun _ => rfl, fun _ _ => rfl, fun _ => rfl⟩

theorem handOutOne_group (h : RecvHandle) (now : Int) (hg : g.Begun exact s.mem) (hc : g.Complete) (hsized : g.pkg.Sized) :
    ∃ q, s.handOutOne h now g.frames = .ok { s with m_recvQueue := s.m_recvQueue ++ q } ∧
      (exact → h.Works → q = g.pkg.delivered.toList) := by
  obtain ⟨msgs, hperm, hholds, hsame⟩ := hg.holds
  rw [hc, ← NetPackage.length_messages, List.take_length] at hperm hsame
  cases hf : g.frames with
  | nil => exact absurd hf hg.ne_nil
  | cons f fs =>
    obtain ⟨msg, hmsg, hhead⟩ := hg.frame (f := f) (by rw [hf]; exact List.mem_cons_self)
    have hsrc := hhead.tSrcLen
    have htotal := hhead.tDataLen
    rw [NetPackage.pkg_of_mem hmsg] at hsrc htotal
    simp only [RecvSession.handOutOne, hsrc, htotal, RecvSession.isBaseProtocolPackage, Bool.false_eq_true, if_false]
    by_cases hpos : g.pkg.m_len > 0
    · rw [if_pos hpos]
      by_cases hinfo : h.setPackageInfo g.pkg.m_len g.pkg.m_len
      · rw [if_pos hinfo]
        by_cases halloc : h.alloc g.pkg.m_len
        · rw [if_pos halloc]
          have hsum : ([] : List UInt8).length + (msgs.map fun g => g.chunk.length).sum ≤ g.pkg.m_len := by
            rw [List.length_nil, Nat.zero_add, (hperm.map _).sum_nat, NetPackage.sum_messages hsized]
          obtain ⟨data, hset, hdata⟩ := setMsgFrames_holds (hf ▸ hholds) hsum
          rw [hset]
          dsimp only [bind, Except.bind]
          by_cases hlen : g.pkg.m_len = data.length
          · rw [if_pos hlen]
            cases hp : h.process data with
            | none =>
              refine ⟨[], by rw [List.append_nil], fun he hw => ?_⟩
              rw [hw.process] at hp
              cases hp
            | some data' =>
              refine ⟨[⟨data', g.pkg.m_len⟩], rfl, fun he hw => ?_⟩
              rw [hw.process, hdata he, hsame he, NetPackage.flatMap_messages hsized] at hp
              rw [NetPackage.delivered, if_pos hpos, ← Option.some.inj hp]
              rfl
          · rw [if_neg hlen]
            refine ⟨[], by rw [List.append_nil], fun he hw => absurd ?_ hlen⟩
            rw [hdata he, hsame he, NetPackage.flatMap_messages hsized]
            exact hsized.symm
        · rw [if_neg halloc]
          exact ⟨[], by rw [List.append_nil], fun he hw => absurd (hw.alloc _) halloc⟩
      · rw [if_neg hinfo]
        exact ⟨[], by rw [List.append_nil], fun he hw => absurd (hw.setPackageInfo _ _) hinfo⟩
    · rw [if_neg hpos]
      refine ⟨[], by rw [List.append_nil], fun _ _ => ?_⟩
      rw [NetPackage.delivered, if_neg hpos]
      rfl

theorem handOutAll_groups (h : RecvHandle) (now : Int) (hg : ∀ g ∈ gs, g.Begun exact s.mem ∧ g.Complete ∧ g.pkg.Sized) :
    ∃ q, (gs.map FrameGroup.frames).foldlM (RecvSession.handOutOne h now) s =
        .ok { s with m_recvQueue := s.m_recvQueue ++ q } ∧
      (exact → h.Works → q = gs.filterMap fun g => g.pkg.delivered) := by
  induction gs generalizing s with
  | nil => exact ⟨[], by rw [List.append_nil]; rfl, fun _ _ => rfl⟩
  | cons g gs ih =>
    obtain ⟨hbegun, hc, hsized⟩ := hg g List.mem_cons_self
    obtain ⟨q, hone, hq⟩ := handOutOne_group h now hbegun hc hsized
    obtain ⟨qs, hall, hqs⟩ := ih (s := { s with m_recvQueue := s.m_recvQueue ++ q }) fun g' hg' => hg g' (List.mem_cons_of_mem _ hg')
    refine ⟨q ++ qs, ?_, fun he hw => ?_⟩
    · rw [List.map_cons, foldlM_cons_ok]
      refine ⟨_, hone, ?_⟩
      rw [hall, List.append_assoc]
    · rw [hq he hw, hqs he hw, List.filterMap_cons]
      cases g.pkg.delivered <;> rfl

theorem RecvHandle.Sorts.perm_sortMany (hs : h.Sorts) (fs : List MsgFrame) : (h.sortMany fs).Perm fs := by
  rw [RecvHandle.sortMany]
  split_ifs
  · exact hs.perm fs
  · exact .refl fs

/-- The groups that are handed out, in the order of their keys. -/
def handed (gs : List FrameGroup) : List FrameGroup := (FrameGroup.inOrder gs).filter fun g => decide g.Complete

theorem mem_handed : g ∈ handed gs ↔ g ∈ gs ∧ g.Complete := by
  rw [handed, List.mem_filter, FrameGroup.mem_inOrder, decide_eq_true_iff]

/-- What `nLastIndex` is the place of: the first frame of the package that is not complete, or the last
frame of the complete one with the greatest key. -/
def LastIndexOf (h : RecvHandle) (gs : List FrameGroup) (g : FrameGroup) (i : Int) : Prop :=
  (¬g.Complete ∧ i = ((h.sortMany g.frames).head?.map (·.m_index)).getD (-1)) ∨
    (g.Complete ∧ (∀ g' ∈ gs, g'.key ≤ g.key) ∧ i = ((h.sortMany g.frames).getLast?.map (·.m_index)).getD (-1))

theorem lastIndex_groups (hw : Waiting exact s.mem s.m_mapFrames gs) (hsome : ∃ g ∈ gs, g.Complete) :
    ∃ g ∈ gs, ∃ i, s.lastIndex h ((handed gs).map FrameGroup.frames) =
        .ok ({ s with m_mapFrames := s.m_mapFrames.set g.key (h.sortMany g.frames) }, i) ∧ LastIndexOf h gs g i := by
  obtain ⟨g₀, hg₀, hc₀⟩ := hsome
  have hsorted : (handed gs).Pairwise fun a b => a.key ≤ b.key := (FrameGroup.sorted_inOrder gs).filter _
  obtain ⟨cs, last, hcs⟩ : ∃ cs last, handed gs = cs ++ [last] := by
    rcases List.eq_nil_or_concat (handed gs) with hnil | ⟨cs, last, hcs⟩
    · exact absurd (mem_handed.2 ⟨hg₀, hc₀⟩) (hnil ▸ List.not_mem_nil)
    · exact ⟨cs, last, hcs.trans (List.concat_eq_append ..)⟩
  have hmax : ∀ g ∈ gs, g.Complete → g.key ≤ last.key := by
    intro g hg hc
    rw [hcs, List.pairwise_append] at hsorted
    have hin := mem_handed.2 ⟨hg, hc⟩
    rw [hcs] at hin
    rcases List.mem_append.1 hin with hin | hin
    · exact hsorted.2.2 g hin last (List.mem_singleton_self _)
    · rw [List.mem_singleton.1 hin]
  have hin : last ∈ handed gs := hcs ▸ List.mem_append_right _ (List.mem_singleton_self _)
  obtain ⟨hlast, hclast⟩ := mem_handed.1 hin
  have hbegun := hw.begun last hlast
  cases hf : last.frames with
  | nil => exact absurd hf hbegun.ne_nil
  | cons f fs =>
    have hkey := hbegun.frame_key (f := f) (by rw [hf]; exact List.mem_cons_self)
    have hget : ((handed gs).map FrameGroup.frames).getLast? = some (f :: fs) := by
      rw [hcs, List.map_append, List.map_singleton, List.getLast?_concat, hf]
    have hfind := hw.find? hlast
    simp only [RecvSession.lastIndex, hget, hkey, hfind]
    cases hnext : s.m_mapFrames.entries.find? fun e => decide (last.key < e.1) with
    | none =>
      refine ⟨last, hlast, _, rfl, .inr ⟨hclast, fun g hg => ?_, rfl⟩⟩
      have := List.find?_eq_none.1 hnext g.entry ((hw.mem _).2 ⟨g, hg, rfl⟩)
      exact not_lt.1 fun hlt => this (decide_eq_true hlt)
    | some e =>
      obtain ⟨g, hg, rfl⟩ := (hw.mem e).1 (List.mem_of_find?_eq_some hnext)
      have hlt : last.key < g.key := by
        have := List.find?_some hnext
        exact of_decide_eq_true this
      exact ⟨g, hg, _, rfl, .inl ⟨fun hc => absurd hlt (not_lt.2 (hmax g hg hc)), rfl⟩⟩

/-- The frames of the last package in another order. -/
theorem Waiting.resort {fs : List MsgFrame} (hw : Waiting exact m map (gs ++ [g])) (hperm : fs.Perm g.frames)
    (hsame : exact → fs = g.frames) : Waiting exact m (map.set g.key fs) (gs ++ [{ g with frames := fs }]) := by
  have hmem : g ∈ gs ++ [g] := List.mem_append_right _ (List.mem_singleton_self g)
  have hkeys := hw.keys
  rw [List.map_append, List.map_singleton] at hkeys
  refine ⟨?_, fun x => ?_, fun g' hg' => ?_, ?_⟩
  · rw [List.map_append]
    exact hkeys
  · rw [StdMap.mem_set, hw.mem x]
    simp only [List.mem_append, List.mem_singleton]
    refine ⟨?_, ?_⟩
    · rintro (⟨⟨g', hg' | rfl, hx⟩, hne⟩ | ⟨hx, -⟩)
      · exact ⟨g', .inl hg', hx⟩
      · exact absurd (hx ▸ rfl) hne
      · exact ⟨_, .inr rfl, hx.symm⟩
    · rintro ⟨g', hg' | rfl, hx⟩
      · have hne : g'.key ≠ g.key := fun heq =>
          (List.nodup_append'.1 hkeys).2.2 (heq ▸ List.mem_map_of_mem hg') (List.mem_singleton_self _)
        exact .inl ⟨⟨g', .inl hg', hx⟩, hx ▸ hne⟩
      · exact .inr ⟨hx.symm, g.frames, StdMap.find?_eq_some.1 (hw.find? hmem)⟩
  · rcases List.mem_append.1 hg' with hg' | hg'
    · exact hw.begun g' (List.mem_append_left _ hg')
    · rw [List.mem_singleton.1 hg']
      exact (hw.begun g hmem).perm hperm hsame
  · have := hw.full
    rwa [List.dropLast_concat] at this ⊢

/-- The complete packages leave the map. -/
theorem Waiting.erase {map' : StdMap Int (List MsgFrame)} (hw : Waiting exact m map gs)
    (hmem : ∀ x, x ∈ map' ↔ x ∈ map ∧ x.1 ∉ (handed gs).map FrameGroup.key) :
    Waiting exact m map' (gs.filter fun g => ¬g.Complete) := by
  refine ⟨(hw.keys.sublist (List.filter_sublist.map _)), fun x => ?_, fun g hg => hw.begun g (List.mem_of_mem_filter hg), ?_⟩
  · rw [hmem x, hw.mem x]
    refine ⟨?_, ?_⟩
    · rintro ⟨⟨g, hg, rfl⟩, hnot⟩
      refine ⟨g, List.mem_filter.2 ⟨hg, ?_⟩, rfl⟩
      exact decide_eq_true fun hc => hnot (List.mem_map.2 ⟨g, mem_handed.2 ⟨hg, hc⟩, rfl⟩)
    · rintro ⟨g, hg, rfl⟩
      obtain ⟨hg, hc⟩ := List.mem_filter.1 hg
      refine ⟨⟨g, hg, rfl⟩, fun hin => ?_⟩
      obtain ⟨g', hg', hkey⟩ := List.mem_map.1 hin
      obtain ⟨hg', hc'⟩ := mem_handed.1 hg'
      have hsame : g' = g := List.inj_on_of_nodup_map hw.keys hg' hg hkey
      exact of_decide_eq_true hc (hsame ▸ hc')
  · intro g hg
    have hin : g ∈ gs.dropLast := by
      rcases List.eq_nil_or_concat gs with rfl | ⟨gs₀, g₁, rfl⟩
      · simp at hg
      · rw [List.concat_eq_append, List.filter_append] at hg
        rw [List.concat_eq_append, List.dropLast_concat]
        by_cases hc : g₁.Complete
        · rw [List.filter_singleton, decide_eq_false (not_not.2 hc), cond_false, List.append_nil] at hg
          exact List.mem_of_mem_filter ((List.dropLast_sublist _).subset hg)
        · rw [List.filter_singleton, decide_eq_true hc, cond_true, List.dropLast_concat] at hg
          exact List.mem_of_mem_filter hg
    exact hw.full g hin

/-- The groups that are not complete, perhaps with their frames in another order. -/
def Left (exact : Prop) (gs left : List FrameGroup) : Prop :=
  List.Forall₂ (fun g' g => g'.pkg = g.pkg ∧ g'.frames.Perm g.frames ∧ (exact → g'.frames = g.frames)) left
    (gs.filter fun g => ¬g.Complete)

theorem left_filter (exact : Prop) (gs : List FrameGroup) : Left exact gs (gs.filter fun g => ¬g.Complete) :=
  List.forall₂_same.2 fun _ _ => ⟨rfl, .refl _, fun _ => rfl⟩

/-- What is handed out. -/
structure HandedOut (exact : Prop) (h : RecvHandle) (s : RecvSession) (gs left : List FrameGroup)
    (map' : StdMap Int (List MsgFrame)) (q : List RecvPackage) (i : Int) : Prop where
  waiting : Waiting exact s.mem map' left
  left : Left exact gs left
  queue : exact → h.Works → q = (handed gs).filterMap fun g => g.pkg.delivered
  last : s.firstExtend.map (· + 1) = some s.m_RecvBuf.length → ∃ g ∈ gs, LastIndexOf h gs g i

theorem Waiting.incomplete_last (hw : Waiting exact m map gs) (hg : g ∈ gs) (hc : ¬g.Complete) :
    ∃ gs₀, gs = gs₀ ++ [g] ∧ ∀ g' ∈ gs₀, g'.Complete := by
  have hfull := hw.full
  rcases List.eq_nil_or_concat gs with rfl | ⟨gs₀, g₁, rfl⟩
  · cases hg
  · rw [List.concat_eq_append] at hg hfull ⊢
    rw [List.dropLast_concat] at hfull
    rcases List.mem_append.1 hg with hg | hg
    · exact absurd (hfull g hg) hc
    · rw [List.mem_singleton.1 hg]
      exact ⟨gs₀, rfl, hfull⟩

theorem filter_incomplete {gs₀ : List FrameGroup} (hfull : ∀ g ∈ gs₀, g.Complete) (hc : ¬g.Complete) :
    (gs₀ ++ [g]).filter (fun g => ¬g.Complete) = [g] := by
  rw [List.filter_append, List.filter_singleton, decide_eq_true hc, cond_true, List.filter_eq_nil_iff.2, List.nil_append]
  intro g' hg'
  simpa using hfull g' hg'

theorem lastPlace_groups (nIndex : Option Nat) (hw : Waiting exact s.mem s.m_mapFrames gs) (hsome : ∃ g ∈ gs, g.Complete)
    (hsorts : h.Sorts) (hkeep : nIndex.map (· + 1) = some s.m_RecvBuf.length → exact → ∀ g ∈ gs, ¬g.Complete →
      h.sortMany g.frames = g.frames) :
    ∃ map₁ i, s.lastPlace h nIndex ((handed gs).map FrameGroup.frames) = .ok ({ s with m_mapFrames := map₁ }, i) ∧
      (∀ g ∈ handed gs, map₁.find? g.key ≠ none) ∧
      (∀ map', (∀ x, x ∈ map' ↔ x ∈ map₁ ∧ x.1 ∉ (handed gs).map FrameGroup.key) →
        ∃ left, Waiting exact s.mem map' left ∧ Left exact gs left) ∧
      (nIndex.map (· + 1) = some s.m_RecvBuf.length → ∃ g ∈ gs, LastIndexOf h gs g i) := by
  rw [RecvSession.lastPlace]
  split_ifs with hlast
  · obtain ⟨g, hg, i, hindex, hof⟩ := lastIndex_groups (h := h) hw hsome
    refine ⟨_, i, hindex, fun g' hg' => ?_, fun map' hmem => ?_, fun _ => ⟨g, hg, hof⟩⟩
    · have hfind := hw.find? (mem_handed.1 hg').1
      by_cases heq : g'.key = g.key
      · rw [heq] at hfind ⊢
        rw [StdMap.find?_set_self hfind]
        exact Option.some_ne_none _
      · rw [StdMap.find?_set_ne heq, hfind]
        exact Option.some_ne_none _
    · by_cases hc : g.Complete
      · refine ⟨_, hw.erase fun x => ?_, left_filter exact gs⟩
        rw [hmem x, StdMap.mem_set]
        have hin : g.key ∈ (handed gs).map FrameGroup.key := List.mem_map_of_mem (mem_handed.2 ⟨hg, hc⟩)
        refine ⟨?_, ?_⟩
        · rintro ⟨⟨hx, -⟩ | ⟨rfl, -⟩, hnot⟩
          · exact ⟨hx, hnot⟩
          · exact absurd hin hnot
        · rintro ⟨hx, hnot⟩
          exact ⟨.inl ⟨hx, fun heq => hnot (heq ▸ hin)⟩, hnot⟩
      · obtain ⟨gs₀, rfl, hfull⟩ := hw.incomplete_last hg hc
        have hperm := hsorts.perm_sortMany g.frames
        have hsorted := hw.resort hperm fun he => hkeep hlast he g hg hc
        have hc' : ¬FrameGroup.Complete { g with frames := h.sortMany g.frames } := by
          rw [FrameGroup.Complete, hperm.length_eq]
          exact hc
        have hkeys : ∀ k, k ∈ (handed (gs₀ ++ [{ g with frames := h.sortMany g.frames }])).map FrameGroup.key ↔
            k ∈ (handed (gs₀ ++ [g])).map FrameGroup.key := by
          intro k
          simp only [List.mem_map, mem_handed, List.mem_append, List.mem_singleton]
          refine ⟨?_, ?_⟩
          · rintro ⟨g', ⟨hg' | rfl, hcg⟩, hk⟩
            · exact ⟨g', ⟨.inl hg', hcg⟩, hk⟩
            · exact absurd hcg hc'
          · rintro ⟨g', ⟨hg' | rfl, hcg⟩, hk⟩
            · exact ⟨g', ⟨.inl hg', hcg⟩, hk⟩
            · exact absurd hcg hc
        have herase := hsorted.erase fun x => by rw [hmem x, hkeys x.1]
        rw [filter_incomplete hfull hc'] at herase
        refine ⟨_, herase, ?_⟩
        rw [Left, filter_incomplete hfull hc]
        exact .cons ⟨rfl, hperm, fun he => hkeep hlast he g hg hc⟩ .nil
  · refine ⟨s.m_mapFrames, -1, rfl, fun g hg => ?_, fun map' hmem => ⟨_, hw.erase hmem, left_filter exact gs⟩,
      fun h => absurd h hlast⟩
    rw [hw.find? (mem_handed.1 hg).1]
    exact Option.some_ne_none _

/-- The request behind what was handed out. -/
def postBehind (s : RecvSession) (nIndex : Option Nat) (nLastIndex : Int) (bFinshPackage : Bool) :
    Except RecvError RecvSession := do
  let (s, place) ← s.placeAfter nIndex nLastIndex
  if bFinshPackage then s.postAfter place nIndex else .ok s

/-- What is complete leaves the map and is handed out, and the next request is posted. -/
theorem handOut_groups {b : Bool} (now : Int) (hw : Waiting exact s.mem s.m_mapFrames gs) (hsome : ∃ g ∈ gs, g.Complete)
    (hsized : ∀ g ∈ gs, g.pkg.Sized) (hsorts : h.Sorts)
    (hkeep : s.firstExtend.map (· + 1) = some s.m_RecvBuf.length → exact → ∀ g ∈ gs, ¬g.Complete →
      h.sortMany g.frames = g.frames) :
    ∃ left map' q i, HandedOut exact h s gs left map' q i ∧ s.handOut h now b =
      postBehind { s with m_mapFrames := map', m_recvQueue := s.m_recvQueue ++ q } s.firstExtend i b := by
  obtain ⟨map₁, i, hlast, hin, hleft, hof⟩ := lastPlace_groups s.firstExtend hw hsome hsorts hkeep
  have hbegun : ∀ g ∈ handed gs, g.Begun exact s.mem := fun g hg => hw.begun g (mem_handed.1 hg).1
  have hkeys : ((handed gs).map FrameGroup.key).Nodup :=
    (((FrameGroup.perm_inOrder gs).map FrameGroup.key).nodup_iff.2 hw.keys).sublist (List.filter_sublist.map _)
  obtain ⟨map', herase, hmem⟩ := eraseEntries_groups (s := { s with m_mapFrames := map₁ }) hbegun hkeys hin
  obtain ⟨left, hwaiting, hincomplete⟩ := hleft map' hmem
  obtain ⟨q, hout, hq⟩ := handOutAll_groups (s := { s with m_mapFrames := map' }) h now fun g hg =>
    ⟨hbegun g hg, (mem_handed.1 hg).2, hsized g (mem_handed.1 hg).1⟩
  refine ⟨left, map', q, i, ⟨hwaiting, hincomplete, hq, hof⟩, ?_⟩
  have hcomplete : RecvSession.completeEntries s.mem s.m_mapFrames.entries = .ok ((handed gs).map FrameGroup.frames) := by
    rw [hw.entries]
    exact completeEntries_groups fun g hg => hw.begun g (FrameGroup.mem_inOrder.1 hg)
  rw [RecvSession.handOut, hcomplete]
  dsimp only [bind, Except.bind]
  rw [hlast]
  dsimp only
  rw [herase]
  dsimp only
  rw [hout]
  rfl

/-- Nothing is handed out before a package is complete. -/
theorem deliver_none {b : Bool} (hw : Waiting exact s.mem s.m_mapFrames gs) (hnone : ∀ g ∈ gs, ¬g.Complete) :
    s.deliver h now b = .ok s := by
  have hall : ((FrameGroup.inOrder gs).any fun g => decide g.Complete) = false := by
    rw [List.any_eq_false]
    intro g hg
    simpa using hnone g (FrameGroup.mem_inOrder.1 hg)
  have hfind := hasComplete_groups fun g hg => hw.begun g (FrameGroup.mem_inOrder.1 hg)
  rw [← hw.entries, hall] at hfind
  rw [RecvSession.deliver, hfind]
  rfl

theorem deliver_some {b : Bool} (hw : Waiting exact s.mem s.m_mapFrames gs) (hsome : ∃ g ∈ gs, g.Complete) :
    s.deliver h now b = s.handOut h now b := by
  have hany : ((FrameGroup.inOrder gs).any fun g => decide g.Complete) = true := by
    obtain ⟨g, hg, hc⟩ := hsome
    exact List.any_eq_true.2 ⟨g, FrameGroup.mem_inOrder.2 hg, decide_eq_true hc⟩
  have hfind := hasComplete_groups fun g hg => hw.begun g (FrameGroup.mem_inOrder.1 hg)
  rw [← hw.entries, hany] at hfind
  rw [RecvSession.deliver, hfind]
  rfl
