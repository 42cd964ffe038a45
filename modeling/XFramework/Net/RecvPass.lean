/-
One pass of `ParseData` (Net/SocketSession.cpp).

A pass first makes the frames a completed request brings (`taken`), then
enters them, and goes on from what the map then holds. Entered in the order of
the stream, they leave packages of which only the last may be incomplete
(`Waiting.enterAll`).
-/
import XFramework.Net.Reassembly

open Bytes Fallible

/-- What a completed request brings: the memory, the buffers and the requests, the frames in the order in
which they are entered, and `bFlag`. -/
structure Taken where
  mem : Mem
  m_RecvBuf : List PackPerData
  posted : List PostReq
  frames : List MsgFrame
  bFlag : Bool

namespace Taken

/-- The session before the frames are entered. -/
def base (t : Taken) (s : RecvSession) : RecvSession := { s with mem := t.mem, m_RecvBuf := t.m_RecvBuf, posted := t.posted }

def enter (t : Taken) (s : RecvSession) : RecvSession := t.frames.foldl RecvSession.enterFrame (t.base s)

def stamp (t : Taken) : Option Int := t.frames.getLast?.map fun f => frameKey t.mem f.m_buf

end Taken

namespace RecvSession

variable {s s' : RecvSession} {h : RecvHandle} {now : Int} {cur : Nat} {io : TmpPerIO}

/-- The frame of the buffer before, when it is complete. -/
def prevFrame (s : RecvSession) (cur : Nat) (nFlag : Bool) : Except RecvError (List MsgFrame) :=
  if nFlag then do
    let d ← s.buf cur
    match d.m_pPrevPerData with
    | none => .ok []
    | some p => do
      let prev ← s.buf p
      let prev ← s.buf prev.m_index
      .ok [prev.getCurComplateFrame s.mem]
  else .ok []

/-- The frames of this buffer, when the first one is complete. -/
def ownFrames (s : RecvSession) (cur : Nat) (ret : Int) : Except RecvError (RecvSession × List MsgFrame) := do
  let d ← s.buf cur
  if ret ≥ 0 ∧ d.m_isFinish then
    let r := (d.setNoticeStatus false).getOtherFrameCount s.mem
    .ok (s.store cur r.1 none, r.1.getCurComplateFrame s.mem :: r.2)
  else .ok (s, [])

def taken (s : RecvSession) (cur : Nat) (io : TmpPerIO) : Except RecvError Taken := do
  let (s, ret, nFlag) ← s.recvData cur io
  let prev ← s.prevFrame cur nFlag
  let (s, own) ← s.ownFrames cur ret
  .ok ⟨s.mem, s.m_RecvBuf, s.posted, prev ++ own, nFlag && decide (ret > 0)⟩

theorem enterFrames_eq (s : RecvSession) (fs : List MsgFrame) :
    fs.foldl enterFrame s = { s with m_mapFrames := fs.foldl (enterIn s.mem) s.m_mapFrames } := by
  induction fs generalizing s with
  | nil => rfl
  | cons f fs ih => exact ih (s.enterFrame f)

theorem recvData_frame {r : Int × Bool} (hr : s.recvData cur io = .ok (s', r)) :
    s' = { s with mem := s'.mem, m_RecvBuf := s'.m_RecvBuf, posted := s'.posted } := by
  rw [recvData] at hr
  obtain ⟨⟨m, bufs, len, nFlag⟩, -, hr⟩ := bind_eq_ok.1 hr
  obtain ⟨d, -, hr⟩ := bind_eq_ok.1 hr
  obtain ⟨⟨d', req, ret⟩, -, hr⟩ := bind_eq_ok.1 hr
  cases hr
  rfl

theorem takePrev_eq (s : RecvSession) (cur : Nat) (nFlag : Bool) :
    s.takePrev cur nFlag = (s.prevFrame cur nFlag).map fun fs =>
      (fs.foldl enterFrame s, fs.getLast?.map fun f => frameKey s.mem f.m_buf) := by
  rw [takePrev, prevFrame]
  split_ifs
  · cases s.buf cur with
    | error e => rfl
    | ok d =>
      dsimp only [bind, Except.bind]
      cases d.m_pPrevPerData with
      | none => rfl
      | some p =>
        dsimp only
        cases s.buf p with
        | error e => rfl
        | ok prev =>
          dsimp only
          cases s.buf prev.m_index <;> rfl
  · rfl

/-- A pass is as `taken` says. -/
theorem takeData_eq (s : RecvSession) (cur : Nat) (io : TmpPerIO) :
    s.takeData cur io = (s.taken cur io).map fun t => (t.enter s, t.stamp, t.bFlag) := by
  rw [takeData, taken]
  cases hr : s.recvData cur io with
  | error e => rfl
  | ok v =>
    obtain ⟨s₁, ret, nFlag⟩ := v
    have hframe := recvData_frame hr
    dsimp only [bind, Except.bind]
    rw [takePrev_eq]
    cases s₁.prevFrame cur nFlag with
    | error e => rfl
    | ok prev =>
      dsimp only [Except.map]
      have hbuf : (prev.foldl enterFrame s₁).buf cur = s₁.buf cur := by rw [enterFrames_eq]; rfl
      rw [takeOwn, ownFrames, hbuf, enterFrames_eq]
      cases hd : s₁.buf cur with
      | error e => rfl
      | ok d =>
        dsimp only [bind, Except.bind]
        have hsession (bufs : List PackPerData) (posted : List PostReq) (fs : List MsgFrame) :
            fs.foldl enterFrame { s₁ with
              m_RecvBuf := bufs, posted := posted, m_mapFrames := prev.foldl (enterIn s₁.mem) s₁.m_mapFrames } =
            Taken.enter ⟨s₁.mem, bufs, posted, prev ++ fs, nFlag && decide (ret > 0)⟩ s := by
          rw [Taken.enter, List.foldl_append, enterFrames_eq _ prev, hframe]
          rfl
        split_ifs with hown
        · refine congrArg Except.ok (Prod.ext (hsession _ _ _) (Prod.ext ?_ rfl))
          dsimp only [Taken.stamp]
          rw [List.getLast?_append, List.getLast?_cons]
          rfl
        · refine congrArg Except.ok (Prod.ext (hsession _ _ []) (Prod.ext ?_ rfl))
          dsimp only [Taken.stamp]
          rw [List.append_nil]

/-! ## Going on -/

/-- What `ParseData` does with what was brought. -/
def pass (h : RecvHandle) (now : Int) (s : RecvSession) (cur : Nat) (t : Taken) : Except RecvError RecvSession :=
  match t.stamp with
  | none => .ok (t.enter s)
  | some stamp => do
    let (s, bFinshPackage) ← goOn h (t.enter s) cur stamp t.bFlag
    deliver h now s bFinshPackage

theorem parseOne_eq (hin : io.nIndex < s.m_RecvBuf.length) :
    s.parseOne h now io = (do
      let t ← s.taken io.nIndex io
      pass h now s io.nIndex t) := by
  rw [parseOne, if_pos hin, takeData_eq]
  cases s.taken io.nIndex io with
  | error e => rfl
  | ok t =>
    cases hstamp : t.stamp <;> simp only [Except.map, bind, Except.bind, pass, hstamp]

end RecvSession

variable {exact : Prop} {m : Mem} {map : StdMap Int (List MsgFrame)} {gs : List FrameGroup} {g : FrameGroup} {rest : List Message} {ps : List NetPackage}
  {s s' : RecvSession} {h : RecvHandle} {now : Int} {cur : Nat} {fs : List MsgFrame} {msgs : List Message}

/-- The frames of the package under way, after the frames `fs` of `msgs` behind the frames `old`. -/
def underWay (old fs : List MsgFrame) (msgs : List Message) : List MsgFrame :=
  (fs.zip msgs).foldl (fun acc x => if x.2.index = 0 then [x.1] else acc ++ [x.1]) old

/-- The frames of the last package. -/
def lastFrames (gs : List FrameGroup) : List MsgFrame := (gs.getLast?.map FrameGroup.frames).getD []

/-- The keys of the packages that begin. -/
def newKeys (msgs : List Message) : List Int := (msgs.filter fun g => g.index = 0).map fun g => g.pkg.stamp

theorem newKeys_cons (g : Message) (msgs : List Message) :
    newKeys (g :: msgs) = (if g.index = 0 then [g.pkg.stamp] else []) ++ newKeys msgs := by
  rw [newKeys, List.filter_cons]
  by_cases h : g.index = 0
  · rw [if_pos (decide_eq_true h), if_pos h]
    rfl
  · rw [if_neg (by simpa using h), if_neg h]
    rfl

/-- The frames of the next messages of the stream, when all packages have keys of their own. -/
theorem Waiting.enterAll (hw : Waiting exact m map gs)
    (hrest : ahead gs ++ ps.flatMap NetPackage.messages = msgs ++ rest) (hf : List.Forall₂ (Holds exact m) fs msgs)
    (hkeys : (gs.map FrameGroup.key ++ newKeys msgs).Nodup) :
    ∃ gs' ps', Waiting exact m (fs.foldl (RecvSession.enterIn m) map) gs' ∧
      ahead gs' ++ ps'.flatMap NetPackage.messages = rest ∧ gs'.map FrameGroup.pkg ++ ps' = gs.map FrameGroup.pkg ++ ps ∧
      gs'.map FrameGroup.key = gs.map FrameGroup.key ++ newKeys msgs ∧
      lastFrames gs' = underWay (lastFrames gs) fs msgs ∧ Grown gs gs' fs ∧ (msgs = [] → gs' = gs) ∧
      ∀ msg ∈ msgs.getLast?, ∃ g ∈ gs'.getLast?, g.pkg = msg.pkg := by
  induction hf generalizing map gs ps with
  | nil => exact ⟨gs, ps, hw, hrest, rfl, (List.append_nil _).symm, rfl, fun _ hg => .inl hg, fun _ => rfl, nofun⟩
  | @cons f msg fs msgs hhead htail ih =>
    rw [newKeys_cons, ← List.append_assoc] at hkeys
    have hkey : msg.index = 0 → msg.pkg.stamp ∉ gs.map FrameGroup.key := fun hindex hin => by
      rw [if_pos hindex] at hkeys
      exact (List.nodup_append'.1 (List.nodup_append'.1 hkeys).1).2.2 hin (List.mem_singleton_self _)
    obtain ⟨gs₁, ps₁, hw₁, hrest₁, hpkgs₁, hkeys₁, hgrown₁, g₁, hlast₁, hpkg₁, hframes₁⟩ := hw.enter hrest hhead hkey
    obtain ⟨gs', ps', hw', hrest', hpkgs', hkeys', hframes', hgrown', hsame', hlast'⟩ := ih hw₁ hrest₁ (hkeys₁ ▸ hkeys)
    refine ⟨gs', ps', hw', hrest', hpkgs'.trans hpkgs₁, ?_, ?_, hgrown₁.trans hgrown', nofun, fun msg' hmsg' => ?_⟩
    · rw [hkeys', hkeys₁, newKeys_cons, List.append_assoc]
    · rw [hframes', underWay, underWay, List.zip_cons_cons, List.foldl_cons]
      congr 1
      rw [lastFrames, hlast₁]
      exact hframes₁
    · cases msgs with
      | nil =>
        cases hmsg'
        rw [hsame' rfl]
        exact ⟨g₁, hlast₁, hpkg₁⟩
      | cons msg'' msgs => exact hlast' msg' (by rwa [List.getLast?_cons_cons] at hmsg')

/-- What the next request does not change. -/
structure SameData (s s' : RecvSession) : Prop where
  mem : s'.mem = s.mem
  map : s'.m_mapFrames = s.m_mapFrames
  queue : s'.m_recvQueue = s.m_recvQueue

theorem SameData.refl (s : RecvSession) : SameData s s := ⟨rfl, rfl, rfl⟩

theorem SameData.trans {s'' : RecvSession} (h₁ : SameData s s') (h₂ : SameData s' s'') : SameData s s'' :=
  ⟨h₂.mem.trans h₁.mem, h₂.map.trans h₁.map, h₂.queue.trans h₁.queue⟩

theorem sameData_nextPlace (s : RecvSession) (cur : Nat) (frames : List MsgFrame) : SameData s (s.nextPlace cur frames) := by
  simp only [RecvSession.nextPlace]
  split_ifs <;> exact ⟨rfl, rfl, rfl⟩

theorem sameData_postRecv {index : Int} {pStart : Option Nat} (hr : s.postRecv index pStart = .ok s') : SameData s s' := by
  rw [RecvSession.postRecv] at hr
  split_ifs at hr
  · obtain ⟨d, -, hr⟩ := bind_eq_ok.1 hr
    cases hr
    exact ⟨rfl, rfl, rfl⟩
  · cases hr
    exact .refl s

theorem sameData_postAfter {place : Int} {nIndex : Option Nat} (hr : s.postAfter place nIndex = .ok s') : SameData s s' := by
  have hreset : SameData s { s.resetRecvFlagInfo place with m_rPostIndex := (place % 16).toNat } := by
    rw [RecvSession.resetRecvFlagInfo]
    split_ifs <;> exact ⟨rfl, rfl, rfl⟩
  exact hreset.trans (sameData_postRecv hr)

theorem sameData_postBehind {nIndex : Option Nat} {i : Int} {b : Bool} (hr : postBehind s nIndex i b = .ok s') :
    SameData s s' := by
  rw [postBehind] at hr
  obtain ⟨⟨s₁, place⟩, hplace, hr⟩ := bind_eq_ok.1 hr
  have h₁ : SameData s s₁ := by
    cases nIndex with
    | none =>
      cases hplace
      exact .refl s
    | some k =>
      rw [RecvSession.placeAfter] at hplace
      split_ifs at hplace <;> cases hplace <;> exact ⟨rfl, rfl, rfl⟩
  dsimp only at hr
  split_ifs at hr
  · exact h₁.trans (sameData_postAfter hr)
  · cases hr
    exact h₁

/-- The last package is complete: its request is posted when it is handed out. -/
theorem goOn_complete (hw : Waiting exact s.mem s.m_mapFrames gs) (hg : g ∈ gs) (hc : g.Complete) :
    s.goOn h cur g.key false = .ok ({ s with m_rPostIndex := 0 }, true) := by
  have hbegun := hw.begun g hg
  rw [RecvSession.goOn, if_neg Bool.false_ne_true, RecvSession.postNext, hw.find? hg]
  cases hf : g.frames with
  | nil => exact absurd hf hbegun.ne_nil
  | cons f fs =>
    have htotal := hbegun.frame_total (f := f) (by rw [hf]; exact List.mem_cons_self)
    have hlen : ¬(f :: fs).length < totalFrames s.mem f := by
      rw [htotal, ← hf]
      exact Nat.not_lt.2 (Nat.le_of_eq hc.symm)
    dsimp only
    rw [if_neg hlen]

/-- The frames of the last package are sorted, and the place of the next request is found. -/
def goNext (h : RecvHandle) (s : RecvSession) (cur : Nat) (g : FrameGroup) : RecvSession :=
  RecvSession.nextPlace { s with m_mapFrames := s.m_mapFrames.set g.key (h.sort g.frames) } cur (h.sort g.frames)

theorem sameData_goNext : SameData { s with m_mapFrames := s.m_mapFrames.set g.key (h.sort g.frames) } (goNext h s cur g) :=
  sameData_nextPlace _ _ _

/-- The last package is not complete: the next request is posted. -/
theorem goOn_incomplete (hw : Waiting exact s.mem s.m_mapFrames gs) (hg : g ∈ gs) (hc : ¬g.Complete) :
    s.goOn h cur g.key false = (do
      let d ← s.buf cur
      let d' ← (goNext h s cur g).buf (goNext h s cur g).m_rPostIndex
      let r := d'.postRecv (if d.m_nExtendLen > 0 then some cur else none)
      .ok ((goNext h s cur g).store (goNext h s cur g).m_rPostIndex r.1 r.2, false)) := by
  have hbegun := hw.begun g hg
  rw [RecvSession.goOn, if_neg Bool.false_ne_true, RecvSession.postNext, hw.find? hg]
  cases hf : g.frames with
  | nil => exact absurd hf hbegun.ne_nil
  | cons f fs =>
    have htotal := hbegun.frame_total (f := f) (by rw [hf]; exact List.mem_cons_self)
    have hlen : (f :: fs).length < totalFrames s.mem f := by
      rw [htotal, ← hf]
      exact Nat.lt_of_le_of_ne hbegun.length_le hc
    simp only [if_pos hlen, goNext, hf]

theorem Waiting.full_of_concat (hw : Waiting exact m map (gs ++ [g])) : ∀ g' ∈ gs, g'.Complete := by
  have := hw.full
  rwa [List.dropLast_concat] at this

/-- Frames that are sorted stay those of the packages that remain. -/
theorem Left.sort {gs₀ left : List FrameGroup} {frames : List MsgFrame} (hfull : ∀ g ∈ gs₀, g.Complete) (hc : ¬g.Complete)
    (hperm : frames.Perm g.frames) (hsame : exact → frames = g.frames)
    (hl : Left exact (gs₀ ++ [{ g with frames := frames }]) left) : Left exact (gs₀ ++ [g]) left := by
  have hc' : ¬FrameGroup.Complete { g with frames := frames } := by
    rw [FrameGroup.Complete, hperm.length_eq]
    exact hc
  rw [Left, filter_incomplete hfull hc'] at hl
  rw [Left, filter_incomplete hfull hc]
  obtain ⟨g', _, ⟨hpkg, hperm', hsame'⟩, hnil, rfl⟩ := List.forall₂_cons_right_iff.1 hl
  cases List.forall₂_nil_right_iff.1 hnil
  exact .cons ⟨hpkg, hperm'.trans hperm, fun he => (hsame' he).trans (hsame he)⟩ .nil

theorem sortMany_of_sort (hkeep : h.sort fs = fs) : h.sortMany fs = fs := by
  rw [RecvHandle.sortMany]
  split_ifs
  · exact hkeep
  · rfl

/-- What a pass makes of the packages that wait. -/
structure Handled (exact : Prop) (h : RecvHandle) (gs left : List FrameGroup) (s s' : RecvSession) : Prop where
  mem : s'.mem = s.mem
  waiting : Waiting exact s'.mem s'.m_mapFrames left
  left : Left exact gs left
  queue : exact → h.Works → s'.m_recvQueue = s.m_recvQueue ++ (handed gs).filterMap fun g => g.pkg.delivered

theorem deliver_handled {b : Bool} (hw : Waiting exact s.mem s.m_mapFrames gs) (hsized : ∀ g ∈ gs, g.pkg.Sized)
    (hsorts : h.Sorts) (hkeep : s.firstExtend.map (· + 1) = some s.m_RecvBuf.length → exact → ∀ g ∈ gs, ¬g.Complete →
      h.sortMany g.frames = g.frames)
    (hr : s.deliver h now b = .ok s') : ∃ left, Handled exact h gs left s s' := by
  by_cases hsome : ∃ g ∈ gs, g.Complete
  · obtain ⟨left, map', q, i, hout, heq⟩ := handOut_groups (b := b) now hw hsome hsized hsorts hkeep
    rw [deliver_some hw hsome, heq] at hr
    have hsame := sameData_postBehind hr
    refine ⟨left, hsame.mem, ?_, hout.left, fun he hworks => ?_⟩
    · rw [hsame.mem, hsame.map]
      exact hout.waiting
    · rw [hsame.queue, hout.queue he hworks]
  · have hnone : ∀ g ∈ gs, ¬g.Complete := fun g hg hc => hsome ⟨g, hg, hc⟩
    rw [deliver_none hw hnone] at hr
    cases hr
    have hall : gs.filter (fun g => ¬g.Complete) = gs := List.filter_eq_self.2 fun g hg => by simpa using hnone g hg
    refine ⟨gs, rfl, hw, ?_, fun _ _ => ?_⟩
    · have := left_filter exact gs
      rwa [hall] at this
    · have hnil : handed gs = [] := by
        rw [List.eq_nil_iff_forall_not_mem]
        exact fun g hg => hnone g (mem_handed.1 hg).1 (mem_handed.1 hg).2
      rw [hnil]
      simp

/-- The groups after a pass has entered its frames are handled. -/
theorem goOn_handled {gs₀ : List FrameGroup} {bFlag : Bool} (hw : Waiting exact s.mem s.m_mapFrames (gs₀ ++ [g]))
    (hsized : ∀ g' ∈ gs₀ ++ [g], g'.pkg.Sized) (hsorts : h.Sorts)
    (hkeep : exact → (bFlag = true → s.firstExtend.map (· + 1) = some s.m_RecvBuf.length) → ¬g.Complete →
      h.sort g.frames = g.frames)
    (hr : (do
      let r ← s.goOn h cur g.key bFlag
      r.1.deliver h now r.2) = .ok s') : ∃ left, Handled exact h (gs₀ ++ [g]) left s s' := by
  obtain ⟨⟨s₁, b⟩, hgo, hr⟩ := bind_eq_ok.1 hr
  have hg : g ∈ gs₀ ++ [g] := List.mem_append_right _ (List.mem_singleton_self g)
  have hfull := hw.full_of_concat
  have hkeep' : (bFlag = true → s.firstExtend.map (· + 1) = some s.m_RecvBuf.length) → exact →
      ∀ g' ∈ gs₀ ++ [g], ¬g'.Complete → h.sortMany g'.frames = g'.frames := by
    intro hlast he g' hg' hc
    rcases List.mem_append.1 hg' with hg' | hg'
    · exact absurd (hfull g' hg') hc
    · rw [List.mem_singleton.1 hg'] at hc ⊢
      exact sortMany_of_sort (hkeep he hlast hc)
  cases bFlag with
  | true =>
    cases hgo
    exact deliver_handled hw hsized hsorts (fun hlast => hkeep' fun _ => hlast) hr
  | false =>
    by_cases hc : g.Complete
    · rw [goOn_complete hw hg hc] at hgo
      cases hgo
      obtain ⟨left, hh⟩ := deliver_handled (s := { s with m_rPostIndex := 0 }) hw hsized hsorts (fun _ => hkeep' nofun) hr
      exact ⟨left, hh.mem, hh.waiting, hh.left, hh.queue⟩
    · rw [goOn_incomplete hw hg hc] at hgo
      obtain ⟨d, -, hgo⟩ := bind_eq_ok.1 hgo
      obtain ⟨d', -, hgo⟩ := bind_eq_ok.1 hgo
      obtain ⟨rfl, rfl⟩ := Prod.mk.inj (Except.ok.inj hgo)
      have hnext : SameData _ (goNext h s cur g) := sameData_goNext
      have hsame : exact → ({ g with frames := h.sort g.frames } : FrameGroup) = g := fun he => by rw [hkeep he nofun hc]
      have hsorted := hw.resort (hsorts.perm g.frames) fun he => hkeep he nofun hc
      have hmem : (goNext h s cur g).mem = s.mem := hnext.mem
      have hmap : (goNext h s cur g).m_mapFrames = s.m_mapFrames.set g.key (h.sort g.frames) := hnext.map
      rw [← hmem, ← hmap] at hsorted
      have hposted (i : Nat) (d : PackPerData) (req : Option PostReq) :
          Waiting exact ((goNext h s cur g).store i d req).mem ((goNext h s cur g).store i d req).m_mapFrames
            (gs₀ ++ [{ g with frames := h.sort g.frames }]) := hsorted
      have hsized' : ∀ g' ∈ gs₀ ++ [{ g with frames := h.sort g.frames }], g'.pkg.Sized := by
        intro g' hg'
        rcases List.mem_append.1 hg' with hg' | hg'
        · exact hsized g' (List.mem_append_left _ hg')
        · rw [List.mem_singleton.1 hg']
          exact hsized g hg
      obtain ⟨left, hh⟩ := deliver_handled (hposted _ _ _) hsized' hsorts (fun _ he => by rw [hsame he]; exact hkeep' nofun he) hr
      refine ⟨left, hh.mem.trans hmem, hh.waiting, hh.left.sort hfull hc (hsorts.perm _) fun he => hkeep he nofun hc,
        fun he hworks => ?_⟩
      have hqueue := hh.queue he hworks
      rw [hsame he] at hqueue
      rw [hqueue]
      exact congrArg (· ++ _) hnext.queue

theorem forall₂_getLast {α β : Type} {R : α → β → Prop} {l₁ : List α} {l₂ : List β} (hr : List.Forall₂ R l₁ l₂) {b : β}
    (hb : l₂.getLast? = some b) : ∃ a, l₁.getLast? = some a ∧ R a b := by
  induction hr with
  | nil => cases hb
  | @cons a b' l₁ l₂ hhead htail ih =>
    cases htail with
    | nil =>
      cases hb
      exact ⟨a, rfl, hhead⟩
    | cons hhead' htail' =>
      rw [List.getLast?_cons_cons] at hb ⊢
      exact ih hb

/-- A message of the stream is one of its package. -/
theorem mem_messages_ahead {msg : Message} (hmsg : msg ∈ ahead gs ++ ps.flatMap NetPackage.messages) :
    msg ∈ msg.pkg.messages := by
  have hpkg : ∃ p : NetPackage, msg ∈ p.messages := by
    rcases List.mem_append.1 hmsg with hmsg | hmsg
    · rw [ahead] at hmsg
      cases hl : gs.getLast? with
      | none =>
        rw [hl] at hmsg
        cases hmsg
      | some g =>
        rw [hl] at hmsg
        exact ⟨g.pkg, List.mem_of_mem_drop hmsg⟩
    · obtain ⟨p, -, hmsg⟩ := List.mem_flatMap.1 hmsg
      exact ⟨p, hmsg⟩
  obtain ⟨p, hmsg⟩ := hpkg
  rwa [NetPackage.pkg_of_mem hmsg]

theorem enter_eq (t : Taken) (s : RecvSession) :
    t.enter s = { t.base s with m_mapFrames := t.frames.foldl (RecvSession.enterIn t.mem) s.m_mapFrames } :=
  RecvSession.enterFrames_eq _ _

/-- What is known when the frames of a pass are entered: `gs₁` are the packages then, the last of which
is that of the last frame. -/
structure Entered (exact : Prop) (s : RecvSession) (t : Taken) (gs gs₁ : List FrameGroup) (ps ps₁ : List NetPackage)
    (msgs rest : List Message) (g : FrameGroup) : Prop where
  waiting : Waiting exact (t.enter s).mem (t.enter s).m_mapFrames gs₁
  rest : ahead gs₁ ++ ps₁.flatMap NetPackage.messages = rest
  pkgs : gs₁.map FrameGroup.pkg ++ ps₁ = gs.map FrameGroup.pkg ++ ps
  last : ∃ gs₀, gs₁ = gs₀ ++ [g]
  frames : g.frames = underWay (lastFrames gs) t.frames msgs
  stamp : t.stamp = some g.key
  total : ∀ msg ∈ msgs.getLast?, msg.total = g.pkg.chunkCount
  grown : Grown gs gs₁ t.frames
  keys : gs₁.map FrameGroup.key = gs.map FrameGroup.key ++ newKeys msgs

theorem Waiting.entered {t : Taken} (hw : Waiting exact t.mem s.m_mapFrames gs)
    (hrest : ahead gs ++ ps.flatMap NetPackage.messages = msgs ++ rest) (hf : List.Forall₂ (Holds exact t.mem) t.frames msgs)
    (hne : msgs ≠ []) (hkeys : (gs.map FrameGroup.key ++ newKeys msgs).Nodup) :
    ∃ gs₁ ps₁ g, Entered exact s t gs gs₁ ps ps₁ msgs rest g := by
  obtain ⟨gs₁, ps₁, hw₁, hrest₁, hpkgs, hkeys₁, hframes, hgrown, -, hlast⟩ := hw.enterAll hrest hf hkeys
  obtain ⟨msg, hmsg⟩ : ∃ msg, msgs.getLast? = some msg := Option.ne_none_iff_exists'.1 (by simpa using hne)
  obtain ⟨g, hg, hpkg⟩ := hlast msg hmsg
  obtain ⟨f, hlf, hholds⟩ := forall₂_getLast hf hmsg
  have hin : msg ∈ ahead gs ++ ps.flatMap NetPackage.messages :=
    hrest ▸ List.mem_append_left _ (List.mem_of_mem_getLast? hmsg)
  have htotal := (NetPackage.total_of_mem (mem_messages_ahead hin)).1
  refine ⟨gs₁, ps₁, g, ?_, hrest₁, hpkgs, ?_, ?_, ?_, ?_, hgrown, hkeys₁⟩
  · rw [enter_eq]
    exact hw₁
  · rcases List.eq_nil_or_concat gs₁ with rfl | ⟨gs₀, g₀, rfl⟩
    · cases hg
    · rw [List.concat_eq_append, List.getLast?_concat] at hg
      rw [← Option.some.inj hg]
      exact ⟨gs₀, List.concat_eq_append ..⟩
  · rw [← hframes, lastFrames, hg]
    rfl
  · rw [Taken.stamp, hlf, Option.map_some, hholds.key, FrameGroup.key, hpkg]
  · intro msg' hmsg'
    rw [hmsg] at hmsg'
    cases hmsg'
    rw [htotal, hpkg]

/-- A pass that enters the next messages of the stream. -/
theorem pass_handled {t : Taken} {gs₁ : List FrameGroup} {ps₁ : List NetPackage}
    (he : Entered exact s t gs gs₁ ps ps₁ msgs rest g) (hne : msgs ≠ []) (hsized : ∀ p ∈ gs.map FrameGroup.pkg ++ ps, p.Sized)
    (hsorts : h.Sorts) (hkeep : exact → (t.bFlag = true → (t.base s).firstExtend.map (· + 1) = some t.m_RecvBuf.length) →
      ∀ msg ∈ msgs.getLast?, (underWay (lastFrames gs) t.frames msgs).length < msg.total →
      h.sort (underWay (lastFrames gs) t.frames msgs) = underWay (lastFrames gs) t.frames msgs)
    (hr : RecvSession.pass h now s cur t = .ok s') : ∃ left, Handled exact h gs₁ left (t.enter s) s' := by
  obtain ⟨gs₀, rfl⟩ := he.last
  rw [RecvSession.pass, he.stamp] at hr
  have hwaiting := he.waiting
  have hg : g ∈ gs₀ ++ [g] := List.mem_append_right _ (List.mem_singleton_self g)
  refine goOn_handled hwaiting (fun g' hg' => ?_) hsorts (fun hexact hlast hc => ?_) hr
  · exact hsized _ (he.pkgs ▸ List.mem_append_left _ (List.mem_map_of_mem hg'))
  · obtain ⟨msg, hmsg⟩ : ∃ msg, msgs.getLast? = some msg := Option.ne_none_iff_exists'.1 (by simpa using hne)
    have hlt : g.frames.length < msg.total := by
      rw [he.total msg hmsg]
      exact Nat.lt_of_le_of_ne (hwaiting.begun g hg).length_le hc
    rw [he.frames] at hlt ⊢
    rw [enter_eq] at hlast
    exact hkeep hexact hlast msg hmsg hlt

/-! ## What remains -/

theorem Left.incomplete {left : List FrameGroup} (hl : Left exact gs left) : ∀ g ∈ left, ¬g.Complete := by
  intro g' hg'
  obtain ⟨i, hi, rfl⟩ := List.mem_iff_getElem.1 hg'
  have hi' : i < (gs.filter fun g => ¬g.Complete).length := hl.length_eq ▸ hi
  obtain ⟨hpkg, hperm, -⟩ := (List.forall₂_iff_get.1 hl).2 i hi hi'
  have hin := (List.mem_filter.1 (List.getElem_mem hi')).2
  rw [FrameGroup.Complete]
  simp only [List.get_eq_getElem] at hpkg hperm
  rw [hpkg, hperm.length_eq]
  exact of_decide_eq_true hin

/-- The last package is handed out, or it remains. -/
theorem Waiting.split (hw : Waiting exact m map gs) :
    (∀ g ∈ gs, g.Complete) ∨ ∃ gs₀ g, gs = gs₀ ++ [g] ∧ (∀ g' ∈ gs₀, g'.Complete) ∧ ¬g.Complete := by
  by_cases hall : ∀ g ∈ gs, g.Complete
  · exact .inl hall
  · obtain ⟨g, hg, hc⟩ : ∃ g ∈ gs, ¬g.Complete := by simpa using hall
    obtain ⟨gs₀, heq, hfull⟩ := hw.incomplete_last hg hc
    exact .inr ⟨gs₀, g, heq, hfull, hc⟩

theorem filter_incomplete_nil (hfull : ∀ g ∈ gs, g.Complete) : gs.filter (fun g => ¬g.Complete) = [] :=
  List.filter_eq_nil_iff.2 fun g hg => by simpa using hfull g hg

theorem Left.of_complete {left : List FrameGroup} (hl : Left exact gs left) (hfull : ∀ g ∈ gs, g.Complete) : left = [] := by
  rw [Left, filter_incomplete_nil hfull] at hl
  exact List.forall₂_nil_right_iff.1 hl

theorem Left.of_incomplete {gs₀ left : List FrameGroup} (hl : Left exact (gs₀ ++ [g]) left) (hfull : ∀ g ∈ gs₀, g.Complete)
    (hc : ¬g.Complete) : ∃ frames, left = [{ g with frames := frames }] ∧ frames.Perm g.frames ∧ (exact → frames = g.frames) := by
  rw [Left, filter_incomplete hfull hc] at hl
  obtain ⟨g', _, ⟨hpkg, hperm, hsame⟩, hnil, rfl⟩ := List.forall₂_cons_right_iff.1 hl
  cases List.forall₂_nil_right_iff.1 hnil
  refine ⟨g'.frames, ?_, hperm, hsame⟩
  rw [← hpkg]

theorem ahead_complete (hw : Waiting exact m map gs) (hfull : ∀ g ∈ gs, g.Complete) : ahead gs = [] := by
  rcases List.eq_nil_or_concat gs with rfl | ⟨gs₀, g, rfl⟩
  · rfl
  · rw [List.concat_eq_append] at hw hfull ⊢
    have hg : g ∈ gs₀ ++ [g] := List.mem_append_right _ (List.mem_singleton_self g)
    rw [ahead_concat]
    exact (missing_eq_nil (hw.begun g hg)).2 (hfull g hg)

/-- The messages yet to come are those that were. -/
theorem Left.ahead_eq {left : List FrameGroup} (hl : Left exact gs left) (hw : Waiting exact m map gs) : ahead left = ahead gs := by
  rcases hw.split with hfull | ⟨gs₀, g, rfl, hfull, hc⟩
  · rw [hl.of_complete hfull, ahead_complete hw hfull, ahead_nil]
  · obtain ⟨frames, rfl, hperm, -⟩ := hl.of_incomplete hfull hc
    have hmissing : FrameGroup.missing { g with frames := frames } = g.missing := by
      rw [FrameGroup.missing, FrameGroup.missing, hperm.length_eq]
    rw [ahead_concat, ← hmissing]
    exact ahead_concat [] _

theorem Left.pkgs_eq {left : List FrameGroup} (hl : Left exact gs left) (hw : Waiting exact m map gs) :
    gs.map FrameGroup.pkg = (gs.filter fun g => decide g.Complete).map FrameGroup.pkg ++ left.map FrameGroup.pkg := by
  rcases hw.split with hfull | ⟨gs₀, g, rfl, hfull, hc⟩
  · rw [hl.of_complete hfull, List.map_nil, List.append_nil, List.filter_eq_self.2 fun g hg => decide_eq_true (hfull g hg)]
  · obtain ⟨frames, rfl, -, -⟩ := hl.of_incomplete hfull hc
    rw [List.filter_append, List.filter_eq_self.2 fun g hg => decide_eq_true (hfull g hg), List.filter_singleton,
      decide_eq_false hc, cond_false, List.append_nil, List.map_append]
    rfl

theorem perm_handed (gs : List FrameGroup) : (handed gs).Perm (gs.filter fun g => decide g.Complete) :=
  (FrameGroup.perm_inOrder gs).filter _
