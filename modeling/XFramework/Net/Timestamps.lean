/-
Packages that are told apart by their timestamps (Net/SocketSession.cpp).

`m_mapFrames` has one entry for a timestamp, and a package is complete when
the entry has as many frames as its first frame says. Two packages with one
timestamp that wait together are one entry, which is handed out as one of
them, or never.

When no two packages that wait together have one timestamp, every package of
which the last frame has been entered is handed out once, with its own data
(`delivered_run`).
-/
import XFramework.Net.RecvPass

open Bytes Fallible

/-- The head and the data of a frame are as they were. -/
def Untouched (m m' : Mem) (f : MsgFrame) : Prop :=
  read m' f.m_buf (24 + (MsgHead.load m f.m_buf).nDataLen.toNat) = read m f.m_buf (24 + (MsgHead.load m f.m_buf).nDataLen.toNat)

instance (m m' : Mem) (f : MsgFrame) : Decidable (Untouched m m' f) := inferInstanceAs (Decidable (_ = _))

variable {exact : Prop} {m m' : Mem} {map : StdMap Int (List MsgFrame)} {gs : List FrameGroup} {f : MsgFrame} {g : Message}

theorem Holds.untouched (hf : Holds exact m f g) (hu : Untouched m m' f) : Holds exact m' f g := by
  rw [Untouched, read_append, read_append] at hu
  obtain ⟨hhead, hdata⟩ := List.append_inj hu (by rw [length_read, length_read])
  have hload : MsgHead.load m' f.m_buf = MsgHead.load m f.m_buf := congrArg MsgHead.ofBytes hhead
  refine ⟨?_, ?_, ?_, ?_, ?_, fun he => ?_⟩
  · rw [← hf.key, frameKey, hload, frameKey]
  · rw [← hf.total, totalFrames, hload, totalFrames]
  · rw [hload, hf.tSrcLen]
  · rw [hload, hf.tDataLen]
  · rw [hload]
    exact hf.nDataLen
  · rw [hload, ← hf.data he]
    exact hdata

theorem Waiting.untouched (hw : Waiting exact m map gs)
    (hu : ∀ g ∈ gs, ∀ f ∈ g.frames, Untouched m m' f) : Waiting exact m' map gs := by
  refine ⟨hw.keys, hw.mem, fun g hg => ?_, hw.full⟩
  obtain ⟨msgs, hperm, hholds, hexact⟩ := (hw.begun g hg).holds
  refine ⟨(hw.begun g hg).ne_nil, msgs, hperm, ?_, hexact⟩
  rw [List.forall₂_iff_zip] at hholds ⊢
  exact ⟨hholds.1, fun {f msg} hin => Holds.untouched (hholds.2 hin) (hu g hg f (List.of_mem_zip hin).1)⟩

/-- A session that parses, and the messages of the stream whose frames are not entered yet. -/
structure Reassembling where
  session : RecvSession
  rest : List Message

/-- A completed request, with the memory and the time at which `ParseData` takes it up. -/
structure Pass where
  io : TmpPerIO
  mem : Mem
  now : Int

namespace Reassembling

variable (h : RecvHandle)

def ready (r : Reassembling) (a : Pass) : RecvSession := { r.session with mem := a.mem }

/-- The frames a pass enters. -/
def taken (r : Reassembling) (a : Pass) : Except RecvError Taken := (r.ready a).taken a.io.nIndex a.io

def step (r : Reassembling) (a : Pass) : Except RecvError Reassembling := do
  let t ← r.taken a
  let s ← (r.ready a).parseOne h a.now a.io
  .ok ⟨s, r.rest.drop t.frames.length⟩

/-- The messages of the frames a pass enters. -/
def entering (r : Reassembling) (t : Taken) : List Message := r.rest.take t.frames.length

/-- The frames that wait. -/
def waitingFrames (r : Reassembling) : List MsgFrame := r.session.m_mapFrames.entries.flatMap (·.2)

/-- The frames entered are those of the next messages of the stream, and all are intact. -/
def Received (r : Reassembling) (a : Pass) : Prop :=
  a.io.nIndex < r.session.m_RecvBuf.length ∧ ∀ t, r.taken a = .ok t →
    List.Forall₂ (Holds True t.mem) t.frames (r.entering t) ∧ ∀ f ∈ r.waitingFrames, Untouched r.session.mem t.mem f

/-- No two packages that wait together have one timestamp, and the frames of the package under way are in
the order in which `sort` leaves them. -/
def Apart (r : Reassembling) (a : Pass) : Prop :=
  ∀ t, r.taken a = .ok t → (r.session.m_mapFrames.entries.map (·.1) ++ newKeys (r.entering t)).Nodup ∧
    ∀ msg ∈ (r.entering t).getLast?, (underWay r.waitingFrames t.frames (r.entering t)).length < msg.total →
      h.sort (underWay r.waitingFrames t.frames (r.entering t)) = underWay r.waitingFrames t.frames (r.entering t)

/-- The packages of which all frames have been entered are `done`, and each has been handed out once. -/
def Delivered (ps : List NetPackage) (r : Reassembling) : Prop :=
  ∃ done left w, ps = done ++ left ∧ r.rest = (left.flatMap NetPackage.messages).drop w ∧
    (∀ p ∈ left.head?, w < p.chunkCount) ∧ r.session.m_recvQueue.Perm (done.filterMap NetPackage.delivered)

/-- What holds between the passes: only the package under way waits. -/
structure Between (ps : List NetPackage) (r : Reassembling) (gs : List FrameGroup) (done left : List NetPackage) : Prop where
  waiting : Waiting True r.session.mem r.session.m_mapFrames gs
  incomplete : ∀ g ∈ gs, ¬g.Complete
  rest : ahead gs ++ left.flatMap NetPackage.messages = r.rest
  pkgs : ps = done ++ (gs.map FrameGroup.pkg ++ left)
  queue : r.session.m_recvQueue.Perm (done.filterMap NetPackage.delivered)

variable {h} {ps done left : List NetPackage} {r r' : Reassembling} {a : Pass}

/-- Between the passes the map holds the package under way, if any. -/
theorem Between.entries (hb : Between ps r gs done left) : r.session.m_mapFrames.entries = gs.map FrameGroup.entry := by
  rw [hb.waiting.entries]
  congr 1
  have hfull := hb.waiting.full
  rcases gs with _ | ⟨g, _ | ⟨g', gs⟩⟩
  · rfl
  · rfl
  · exact absurd (hfull g (by simp)) (hb.incomplete g List.mem_cons_self)

theorem Between.waitingFrames (hb : Between ps r gs done left) : r.waitingFrames = lastFrames gs := by
  have hfull := hb.waiting.full
  rw [Reassembling.waitingFrames, hb.entries]
  rcases gs with _ | ⟨g, _ | ⟨g', gs⟩⟩
  · rfl
  · simp [lastFrames, FrameGroup.entry]
  · exact absurd (hfull g (by simp)) (hb.incomplete g List.mem_cons_self)

theorem Between.step (hb : Between ps r gs done left) (hsized : ∀ p ∈ ps, p.Sized) (hworks : h.Works) (hsorts : h.Sorts)
    (hreceived : Received r a) (hapart : Apart h r a) (hstep : r.step h a = .ok r') :
    ∃ gs' done' left', Between ps r' gs' done' left' := by
  obtain ⟨t, htaken, hstep⟩ := bind_eq_ok.1 hstep
  obtain ⟨s', hparse, hstep⟩ := bind_eq_ok.1 hstep
  cases hstep
  obtain ⟨hin, hframes⟩ := hreceived
  obtain ⟨hholds, huntouched⟩ := hframes t htaken
  obtain ⟨hkeys, hkeep⟩ := hapart t htaken
  have hpass : (r.ready a).pass h a.now a.io.nIndex t = .ok s' := by
    have hin' : a.io.nIndex < (r.ready a).m_RecvBuf.length := hin
    rw [RecvSession.parseOne_eq hin', bind_eq_ok] at hparse
    obtain ⟨t', ht', hpass⟩ := hparse
    have hsame : (r.ready a).taken a.io.nIndex a.io = .ok t := htaken
    rw [hsame] at ht'
    cases ht'
    exact hpass
  have hwaiting : Waiting True t.mem r.session.m_mapFrames gs := hb.waiting.untouched fun g hg f hf =>
    huntouched f (by
      rw [Reassembling.waitingFrames, hb.entries, List.mem_flatMap]
      exact ⟨g.entry, List.mem_map_of_mem hg, hf⟩)
  rw [hb.entries, List.map_map] at hkeys
  rw [hb.waitingFrames] at hkeep
  by_cases hne : r.entering t = []
  · rw [hne] at hholds
    have hnil := List.forall₂_nil_right_iff.1 hholds
    rw [RecvSession.pass, Taken.stamp, hnil] at hpass
    cases hpass
    refine ⟨gs, done, left, ?_, hb.incomplete, ?_, hb.pkgs, ?_⟩
    · rw [enter_eq, hnil]
      exact hwaiting
    · rw [hnil]
      exact hb.rest
    · rw [enter_eq]
      exact hb.queue
  · have hrest : ahead gs ++ left.flatMap NetPackage.messages = r.entering t ++ r.rest.drop t.frames.length := by
      rw [hb.rest, entering, List.take_append_drop]
    obtain ⟨gs₁, left₁, g, he⟩ := Waiting.entered (s := r.ready a) hwaiting hrest hholds hne hkeys
    have hsized' : ∀ p ∈ gs.map FrameGroup.pkg ++ left, p.Sized := fun p hp =>
      hsized p (hb.pkgs ▸ List.mem_append_right _ hp)
    obtain ⟨remaining, hh⟩ := pass_handled he hne hsized' hsorts (fun _ _ => hkeep) hpass
    refine ⟨remaining, done ++ (gs₁.filter fun g => decide g.Complete).map FrameGroup.pkg, left₁, hh.waiting,
      hh.left.incomplete, ?_, ?_, ?_⟩
    · rw [hh.left.ahead_eq he.waiting]
      exact he.rest
    · rw [hb.pkgs, ← he.pkgs, hh.left.pkgs_eq he.waiting, List.append_assoc, List.append_assoc]
    · have hqueue := hh.queue trivial hworks
      rw [enter_eq] at hqueue
      have hnew : ((handed gs₁).filterMap fun g => g.pkg.delivered).Perm
          (((gs₁.filter fun g => decide g.Complete).map FrameGroup.pkg).filterMap NetPackage.delivered) := by
        rw [List.filterMap_map]
        exact (perm_handed gs₁).filterMap _
      rw [hqueue, List.filterMap_append]
      exact hb.queue.append hnew

theorem Between.delivered (hb : Between ps r gs done left) : Delivered ps r := by
  have hfull := hb.waiting.full
  rcases gs with _ | ⟨g, _ | ⟨g', gs⟩⟩
  · refine ⟨done, left, 0, hb.pkgs, ?_, fun p _ => ?_, hb.queue⟩
    · rw [← hb.rest, List.drop_zero]
      rfl
    · rw [NetPackage.chunkCount]
      omega
  · have hg := hb.waiting.begun g List.mem_cons_self
    have hlt : g.frames.length < g.pkg.chunkCount := Nat.lt_of_le_of_ne hg.length_le (hb.incomplete g List.mem_cons_self)
    refine ⟨done, g.pkg :: left, g.frames.length, hb.pkgs, ?_, fun p hp => ?_, hb.queue⟩
    · rw [← hb.rest, List.flatMap_cons, List.drop_append_of_le_length (by rw [NetPackage.length_messages]; exact hlt.le)]
      rfl
    · cases hp
      exact hlt
  · exact absurd (hfull g (by simp)) (hb.incomplete g List.mem_cons_self)

/-- In every run in which no two packages that wait together have one timestamp, the packages are handed
out when their last frame has been entered, each once and with its own data. -/
theorem delivered_run {s : RecvSession} {passes : List Pass} (hsized : ∀ p ∈ ps, p.Sized) (hworks : h.Works) (hsorts : h.Sorts)
    (hmap : s.m_mapFrames = .empty) (hqueue : s.m_recvQueue = [])
    (hk : Along (step h) (fun r a => Received r a ∧ Apart h r a) ⟨s, ps.flatMap NetPackage.messages⟩ passes)
    (hrun : passes.foldlM (step h) ⟨s, ps.flatMap NetPackage.messages⟩ = .ok r) : Delivered ps r := by
  have hbegin : Between ps ⟨s, ps.flatMap NetPackage.messages⟩ [] [] ps := by
    refine ⟨⟨.nil, fun x => ?_, nofun, nofun⟩, nofun, rfl, rfl, ?_⟩
    · rw [hmap]
      simp
    · rw [hqueue]
      exact .nil
  have hkept := hk.keeps (fun r => ∃ gs done left, Between ps r gs done left) hrun ⟨_, _, _, hbegin⟩
    fun r a r' hb hok hstep => by
      obtain ⟨gs, done, left, hb⟩ := hb
      exact hb.step hsized hworks hsorts hok.1 hok.2 hstep
  obtain ⟨gs, done, left, hb⟩ := hkept
  exact hb.delivered

/-! ## Two packages in one session -/

instance (m : Mem) (f : MsgFrame) (g : Message) : Decidable (Holds True m f g) :=
  decidable_of_iff (frameKey m f.m_buf = g.pkg.stamp ∧ totalFrames m f = g.total ∧
      (MsgHead.load m f.m_buf).tSrcLen.toNat = g.pkg.m_len ∧ (MsgHead.load m f.m_buf).tDataLen.toNat = g.pkg.m_len ∧
      (MsgHead.load m f.m_buf).nDataLen.toNat ≤ g.chunk.length ∧
      read m (f.m_buf + 24) (MsgHead.load m f.m_buf).nDataLen.toNat = g.chunk)
    ⟨fun ⟨hkey, htotal, hsrc, hlen, hle, hdata⟩ => ⟨hkey, htotal, hsrc, hlen, hle, fun _ => hdata⟩,
      fun hf => ⟨hf.key, hf.total, hf.tSrcLen, hf.tDataLen, hf.nDataLen, hf.data trivial⟩⟩

instance (r : Reassembling) (a : Pass) : Decidable (Received r a) :=
  inferInstanceAs (Decidable (_ ∧ ∀ t, r.taken a = .ok t → List.Forall₂ (Holds True t.mem) t.frames (r.entering t) ∧
    ∀ f ∈ r.waitingFrames, Untouched r.session.mem t.mem f))

instance (h : RecvHandle) (r : Reassembling) (a : Pass) : Decidable (Apart h r a) :=
  inferInstanceAs (Decidable (∀ t, r.taken a = .ok t →
    (r.session.m_mapFrames.entries.map (·.1) ++ newKeys (r.entering t)).Nodup ∧
      ∀ msg ∈ (r.entering t).getLast?, (underWay r.waitingFrames t.frames (r.entering t)).length < msg.total →
        h.sort (underWay r.waitingFrames t.frames (r.entering t)) = underWay r.waitingFrames t.frames (r.entering t)))

/-- A package of `len` equal bytes. -/
def bytesOf (len : Nat) (stamp : Int64) (b : UInt8) : NetPackage where
  m_len := len
  m_nBaseProtol := 0
  m_nUserProtol := 0
  m_nVerifyLen := 0
  m_pData := some (List.replicate len b)
  m_timestamp := stamp
  sized _ hd := by
    cases hd
    exact List.length_replicate

/-- A message with its head. -/
def wireOf (g : Message) : List UInt8 :=
  let head := PackageProxy.frameHead g.index g.pkg.m_len g.total g.pkg
  { head with nDataLen := .ofNat g.chunk.length, nFrameLen := .ofNat (24 + g.chunk.length) : MsgHead }.bytes ++ g.chunk

/-- A session at 4096 whose first request is out. -/
def listening : RecvSession :=
  let s := RecvSession.init 0 (fun _ => 0) 4096
  { s with posted := [⟨4096, 4096, 0, none⟩] }

/-- `msgs` arrive in the first buffer. -/
def arriving (msgs : List Message) : Pass :=
  let bs := msgs.flatMap wireOf
  ⟨⟨0, bs.length, 4096, none⟩, write (fun _ => 0) 4096 bs, 0⟩

/-- Two packages arrive in one piece, the later one first by its timestamp, and then a third one that has
the timestamp of the first. -/
def apartPackages : List NetPackage := [bytesOf 5 2 7, bytesOf 3 1 8, bytesOf 4 2 9]

def apartPasses : List Pass :=
  let msgs := apartPackages.flatMap NetPackage.messages
  [arriving (msgs.take 2), arriving (msgs.drop 2)]

theorem delivered_run_apart : ∃ r, apartPasses.foldlM (step .plain) ⟨listening, apartPackages.flatMap NetPackage.messages⟩ = .ok r ∧
    r.session.m_recvQueue.map RecvPackage.m_len = [3, 5, 4] ∧ Delivered apartPackages r := by
  have hended : ∃ r, apartPasses.foldlM (step .plain) ⟨listening, apartPackages.flatMap NetPackage.messages⟩ = .ok r ∧
      r.session.m_recvQueue.map RecvPackage.m_len = [3, 5, 4] := by decide +kernel
  obtain ⟨r, hr, hqueue⟩ := hended
  have hmet : Along (step .plain) (fun r a => Received r a ∧ Apart .plain r a)
      ⟨listening, apartPackages.flatMap NetPackage.messages⟩ apartPasses := by decide +kernel
  have hsized : ∀ p ∈ apartPackages, p.Sized := by decide +kernel
  exact ⟨r, hr, hqueue, delivered_run hsized RecvHandle.works_plain RecvHandle.sorts_plain rfl rfl hmet hr⟩

/-- Two packages of one frame, made in one millisecond. -/
def samePackages : List NetPackage := [bytesOf 5 1 7, bytesOf 5 1 9]

/-- Both are there, and neither is handed out. -/
theorem not_delivered_same : (∀ p ∈ samePackages, p.Sized) ∧
    ∃ r, [arriving (samePackages.flatMap NetPackage.messages)].foldlM (step .plain)
        ⟨listening, samePackages.flatMap NetPackage.messages⟩ = .ok r ∧
      Along (step .plain) Received ⟨listening, samePackages.flatMap NetPackage.messages⟩
        [arriving (samePackages.flatMap NetPackage.messages)] ∧ ¬Delivered samePackages r := by
  have hended : ∃ r, [arriving (samePackages.flatMap NetPackage.messages)].foldlM (step .plain)
      ⟨listening, samePackages.flatMap NetPackage.messages⟩ = .ok r ∧
      (r.rest.length = 0 ∧ r.session.m_recvQueue = []) := by decide +kernel
  obtain ⟨r, hr, hrest, hqueue⟩ := hended
  refine ⟨by decide +kernel, r, hr, by decide +kernel, fun ⟨done, left, w, hps, hleft, hw, hperm⟩ => ?_⟩
  have hnil : left = [] := by
    cases left with
    | nil => rfl
    | cons p left =>
      have hlt := hw p rfl
      rw [hleft, List.length_drop, List.flatMap_cons, List.length_append, NetPackage.length_messages] at hrest
      omega
  rw [hnil, List.append_nil] at hps
  rw [hqueue, ← hps] at hperm
  exact absurd hperm.length_eq (by decide +kernel)

end Reassembling
