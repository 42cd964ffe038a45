/-
When a pass of `ParseData` comes to its end (Net/PackPerData.cpp,
Net/SocketSession.cpp, Net/DataHandle.h).

Every function of a pass that can throw, or that names a buffer which need not
be there, is given the condition under which it does neither; that of a pass
(`Passes`) is put together from them.
-/
import XFramework.Net.RecvKept

open Bytes Fallible

/-- The lengths a head gives do not contradict each other. -/
def MsgHead.Agrees (h : MsgHead) : Prop := h.tSrcLen = h.tDataLen ∧ h.nDataLen ≤ h.nFrameLen ∧ h.nDataLen ≤ h.tDataLen

theorem returns_checkHead {h : MsgHead} : Returns (checkHead h) ↔ h.Agrees := by
  simp only [checkHead, MsgHead.Agrees, gt_iff_lt, ← UInt16.not_le]
  split_ifs with hframe hrecv
  · simp only [not_returns_error, false_iff]
    intro hagrees
    exact hframe.elim (absurd hagrees.1) (absurd hagrees.2.1)
  · simp only [not_returns_error, false_iff]
    intro hagrees
    rw [hagrees.1] at hrecv
    exact hrecv.elim (absurd hagrees.2.1) fun h => h.elim (absurd hagrees.2.2) (absurd hagrees.2.2)
  · simp only [not_or, not_not] at hframe hrecv
    exact iff_of_true returns_ok ⟨hframe.1, hframe.2, hrecv.2.1⟩

namespace PackPerData

variable {m : Mem} {d prev : PackPerData} {p buf pdata : Int} {nPrevLen copied len : Nat} {pPrev : Option Nat}

/-- The head at `p`, of which the first `nPrevLen` bytes were left over and the others are at `buf`. -/
def headAt (m : Mem) (p buf : Int) (nPrevLen : Nat) : MsgHead :=
  .load (if nPrevLen < 24 then write m (p + nPrevLen) (read m buf (24 - nPrevLen)) else m) p

/-- When more than a head came: it is that of a frame, and there are bytes of the frame to come. -/
def Copies (m : Mem) (p buf : Int) (nPrevLen len : Nat) : Prop :=
  24 < len → (headAt m p buf nPrevLen).tFrames ≠ 0 ∧ (headAt m p buf nPrevLen).Agrees ∧
    nPrevLen < (headAt m p buf nPrevLen).nFrameLen.toNat

theorem returns_copyToPrev : Returns (copyToPrev m p buf nPrevLen len) ↔ Copies m p buf nPrevLen len := by
  rw [copyToPrev, Copies]
  by_cases hlen : 24 < len
  · rw [if_pos hlen, forall_prop_of_true hlen]
    change Returns (if (headAt m p buf nPrevLen).tFrames = 0 then _ else do
      checkHead (headAt m p buf nPrevLen)
      if (headAt m p buf nPrevLen).nFrameLen.toNat ≤ nPrevLen then _ else _) ↔ _
    by_cases hframes : (headAt m p buf nPrevLen).tFrames = 0
    · simp [hframes]
    · rw [if_neg hframes, returns_bind, returns_checkHead, and_iff_right hframes]
      refine and_congr_right fun hagrees => ?_
      have hok : checkHead (headAt m p buf nPrevLen) = .ok () := (returns_checkHead.2 hagrees).elim fun _ h => h
      by_cases hleft : (headAt m p buf nPrevLen).nFrameLen.toNat ≤ nPrevLen
      · simp [hok, hleft]
      · simp only [hleft, if_false, not_le.1 hleft, iff_true]
        intro _ _
        split_ifs <;> exact returns_ok
  · rw [if_neg hlen]
    exact iff_of_true returns_ok fun h => absurd h hlen

/-- When the frame at `prev` is complete with the bytes that were copied, its lengths agree. -/
def Completes (prev : PackPerData) (m : Mem) (copied : Nat) : Prop :=
  (prev.m_nExtendLen + copied) % 65536 = (MsgHead.load m prev.m_frame.m_buf).nFrameLen.toNat →
    (MsgHead.load m prev.m_frame.m_buf).Agrees

theorem returns_joined : Returns (prev.joined m copied len) ↔ prev.Completes m copied := by
  simp only [joined, Completes]
  split_ifs with hfull
  · rw [forall_prop_of_true hfull, returns_bind, returns_checkHead]
    simp
  · exact iff_of_true returns_ok fun h => absurd h hfull

/-- The bytes left over at `prev` are joined with those that came. -/
def Joins (m : Mem) (buf : Int) (prev : PackPerData) (len : Nat) : Prop :=
  Copies (prev.moveExtendData m).2 prev.m_frame.m_buf buf prev.m_nExtendLen len ∧
    ∀ m' copied len', copyToPrev (prev.moveExtendData m).2 prev.m_frame.m_buf buf prev.m_nExtendLen len = .ok (m', copied, len') →
      (prev.moveExtendData m).1.Completes m' copied

theorem returns_joinPrev : Returns (joinPrev m buf prev len) ↔ Joins m buf prev len := by
  rw [joinPrev, returns_bind, returns_copyToPrev, Joins]
  refine and_congr_right fun _ => ?_
  simp only [Prod.forall, returns_joined]

/-- When more than a head came for the buffer itself: the head gives a length, and when the frame fits the
buffer and is complete, no more than a buffer is left behind it. -/
def Owns (d : PackPerData) (m : Mem) (pdata : Int) (len : Nat) : Prop :=
  let nFrameLen := (MsgHead.load m d.m_frame.m_buf).nFrameLen.toNat
  len ≠ 0 → pdata + len - d.m_frame.m_buf > 24 → nFrameLen ≠ 0 ∧ (nFrameLen ≤ d.m_frame.len →
    d.m_frame.m_buf + nFrameLen ≤ pdata + len →
      (if len > nFrameLen then (len - nFrameLen) % 65536 else d.m_nExtendLen) ≤ PERIOPOSTSIZE)

theorem returns_recvOwn : Returns (d.recvOwn m pdata len pPrev) ↔ d.Owns m pdata len := by
  simp only [recvOwn, Owns]
  split_ifs <;> simp_all

end PackPerData

namespace RecvSession

variable {h : RecvHandle} {now stamp : Int} {s s' : RecvSession} {cur : Nat} {io : TmpPerIO} {m : Mem}

theorem Kept.length_eq (hk : Kept s s') : s'.m_RecvBuf.length = s.m_RecvBuf.length := by
  simpa using congrArg List.length hk.places

theorem returns_buf {i : Nat} : Returns (s.buf i) ↔ i < s.m_RecvBuf.length := by
  simp only [Returns, buf_eq_ok]
  rw [← Option.isSome_iff_exists, isSome_getElem?]

/-! ## Taking the data -/

/-- The buffer before is there, and what is left over at it is joined with what came. -/
def JoinsData (s : RecvSession) (cur : Nat) (io : TmpPerIO) : Prop :=
  ∀ p, io.pPrevIOData = some p → p < s.m_RecvBuf.length ∧ ∀ d prev, s.buf cur = .ok d → s.buf p = .ok prev →
    prev.m_nExtendLen > 0 → PackPerData.Joins s.mem d.m_frame.m_buf prev io.len

theorem returns_joinData (hcur : cur < s.m_RecvBuf.length) : Returns (s.joinData cur io) ↔ s.JoinsData cur io := by
  rw [joinData, JoinsData]
  cases io.pPrevIOData with
  | none => simp
  | some p =>
    have hone (d prev : PackPerData) : Returns (if prev.m_nExtendLen > 0 then do
          let j ← PackPerData.joinPrev s.mem d.m_frame.m_buf prev io.len
          .ok (j.mem, s.m_RecvBuf.set p j.prev, j.len, j.nFlag)
        else .ok (s.mem, s.m_RecvBuf, io.len, false) : Except RecvError (Mem × List PackPerData × Nat × Bool)) ↔
        (prev.m_nExtendLen > 0 → PackPerData.Joins s.mem d.m_frame.m_buf prev io.len) := by
      by_cases hleft : prev.m_nExtendLen > 0
      · rw [if_pos hleft, forall_prop_of_true hleft, returns_bind, PackPerData.returns_joinPrev]
        simp
      · simp [hleft]
    simp only [Option.some.injEq, forall_eq', returns_bind, returns_buf, hcur, true_and, hone]
    refine ⟨?_, ?_⟩
    · intro hjoin
      obtain ⟨d, hd⟩ := returns_buf.2 hcur
      exact ⟨(hjoin d hd).1, fun d prev hd hprev => (hjoin d hd).2 prev hprev⟩
    · intro hjoin d hd
      exact ⟨hjoin.1, fun prev hprev => hjoin.2 d prev hd hprev⟩

def Receives (s : RecvSession) (cur : Nat) (io : TmpPerIO) : Prop :=
  s.JoinsData cur io ∧ ∀ m bufs len nFlag d, s.joinData cur io = .ok (m, bufs, len, nFlag) → bufs[cur]? = some d →
    d.Owns m io.pBuf len

theorem returns_recvData (hcur : cur < s.m_RecvBuf.length) : Returns (s.recvData cur io) ↔ s.Receives cur io := by
  rw [recvData, returns_bind, returns_joinData hcur, Receives]
  refine and_congr_right fun _ => ?_
  simp only [Prod.forall, returns_bind, returns_buf, returns_ok, implies_true, and_true, PackPerData.returns_recvOwn, buf_eq_ok]
  refine ⟨?_, ?_⟩
  · intro hown m bufs len nFlag d hjoin hd
    exact (hown m bufs len nFlag hjoin).2 d hd
  · intro hown m bufs len nFlag hjoin
    refine ⟨?_, fun d hd => hown m bufs len nFlag d hjoin hd⟩
    have hlen := (kept_joinData hjoin).length_eq
    rwa [hlen]

/-- The buffer before, and the place that it gives, are there. -/
def Precedes (s : RecvSession) (cur : Nat) (nFlag : Bool) : Prop :=
  nFlag = true → ∀ d p, s.buf cur = .ok d → d.m_pPrevPerData = some p → p < s.m_RecvBuf.length ∧
    ∀ prev, s.buf p = .ok prev → prev.m_index < s.m_RecvBuf.length

theorem returns_takePrev {nFlag : Bool} (hcur : cur < s.m_RecvBuf.length) : Returns (s.takePrev cur nFlag) ↔ s.Precedes cur nFlag := by
  rw [takePrev, Precedes]
  split_ifs with hflag
  · simp only [hflag, forall_const, returns_bind, returns_buf, hcur, true_and]
    refine forall_congr' fun d => ?_
    cases d.m_pPrevPerData with
    | none => simp
    | some p =>
      simp only [Option.some.injEq, returns_bind, returns_buf, returns_ok, implies_true, and_true]
      exact ⟨fun h p hd hp => hp ▸ h hd, fun h hd => h p hd rfl⟩
  · simp [hflag]

theorem returns_takeOwn {ret : Int} {stamp : Option Int} (hcur : cur < s.m_RecvBuf.length) : Returns (s.takeOwn cur ret stamp) := by
  rw [takeOwn, returns_bind]
  refine ⟨returns_buf.2 hcur, fun d _ => ?_⟩
  split_ifs <;> exact returns_ok

def Takes (s : RecvSession) (cur : Nat) (io : TmpPerIO) : Prop :=
  s.Receives cur io ∧ ∀ s' ret nFlag, s.recvData cur io = .ok (s', ret, nFlag) → s'.Precedes cur nFlag

theorem returns_takeData (hcur : cur < s.m_RecvBuf.length) : Returns (s.takeData cur io) ↔ s.Takes cur io := by
  rw [takeData, returns_bind, returns_recvData hcur, Takes]
  refine and_congr_right fun _ => ?_
  simp only [Prod.forall]
  refine forall_congr' fun s₁ => forall_congr' fun ret => forall_congr' fun nFlag => imp_congr_right fun hr => ?_
  have hlen := (kept_recvData hr).length_eq
  rw [returns_bind, returns_takePrev (hlen ▸ hcur), and_iff_left_iff_imp]
  rintro - ⟨s₂, stamp⟩ hprev
  have hlen' : s₂.m_RecvBuf.length = s₁.m_RecvBuf.length := (kept_takePrev hprev).length_eq
  have hcur' : cur < s₂.m_RecvBuf.length := by omega
  rw [returns_bind]
  exact ⟨returns_takeOwn hcur', fun _ _ => returns_ok⟩

/-! ## Going on -/

/-- When the last package is not complete, the buffer of the next request is there. -/
def PostsNext (h : RecvHandle) (s : RecvSession) (cur : Nat) (stamp : Int) : Prop :=
  ∀ fs, s.m_mapFrames.find? stamp = some fs → fs ≠ [] ∧ ∀ f, fs.head? = some f → fs.length < totalFrames s.mem f →
    (s.nextPlace cur (h.sort fs)).m_rPostIndex < s.m_RecvBuf.length

theorem nextPlace_congr {fs : List MsgFrame} (map : StdMap Int (List MsgFrame)) :
    (nextPlace { s with m_mapFrames := map } cur fs).m_rPostIndex = (s.nextPlace cur fs).m_rPostIndex := by
  simp only [nextPlace]
  split_ifs <;> rfl

theorem returns_postNext (hcur : cur < s.m_RecvBuf.length) : Returns (s.postNext h cur stamp) ↔ s.PostsNext h cur stamp := by
  rw [postNext, PostsNext]
  cases hfind : s.m_mapFrames.find? stamp with
  | none => simp
  | some fs =>
    cases fs with
    | nil => simp
    | cons f fs =>
      dsimp only
      split_ifs with hlt
      · have hlen (frames : List MsgFrame) : (nextPlace { s with m_mapFrames := s.m_mapFrames.set stamp (h.sort (f :: fs)) } cur
            frames).m_RecvBuf.length = s.m_RecvBuf.length := by
          rw [kept_nextPlace.length_eq]
        simp only [returns_bind, returns_buf, hcur, true_and, hlen, nextPlace_congr, returns_ok, implies_true, and_true]
        obtain ⟨d, hd⟩ := returns_buf.2 hcur
        exact ⟨fun hnext fs' heq => by cases heq; exact ⟨nofun, fun _ _ _ => hnext d hd⟩,
          fun hnext _ _ => (hnext _ rfl).2 f rfl hlt⟩
      · refine iff_of_true returns_ok fun fs' heq => ?_
        cases heq
        exact ⟨nofun, fun f' hf' h => by cases hf'; exact absurd h hlt⟩

/-! ## What is complete -/

/-- The entry has frames, and they have its timestamp. -/
def Keyed (m : Mem) (e : Int × List MsgFrame) : Prop := e.2 ≠ [] ∧ ∀ f ∈ e.2, frameKey m f.m_buf = e.1

/-- So it is up to the first entry that is complete. -/
def Scans (m : Mem) (entries : List (Int × List MsgFrame)) : Prop :=
  ∀ pre e post, entries = pre ++ e :: post → (∀ e' ∈ pre, isComplete m e'.2 = false) → Keyed m e

/-- No entry is empty, and the frames of a complete one have its timestamp. -/
def Collects (m : Mem) (entries : List (Int × List MsgFrame)) : Prop :=
  ∀ e ∈ entries, e.2 ≠ [] ∧ (isComplete m e.2 = true → ∀ f ∈ e.2, frameKey m f.m_buf = e.1)

/-- `vecFrames`. -/
def completeFrames (m : Mem) (entries : List (Int × List MsgFrame)) : List (List MsgFrame) :=
  (entries.filter fun e => isComplete m e.2).map (·.2)

variable {e : Int × List MsgFrame} {entries : List (Int × List MsgFrame)}

theorem scans_cons : Scans m (e :: entries) ↔ Keyed m e ∧ (isComplete m e.2 = false → Scans m entries) := by
  refine ⟨?_, ?_⟩
  · intro hscans
    refine ⟨hscans [] e entries rfl nofun, fun hfalse pre e' post heq hpre => hscans (e :: pre) e' post (by rw [heq]; rfl) ?_⟩
    intro e'' hmem
    cases List.mem_cons.1 hmem with
    | inl heq => exact heq ▸ hfalse
    | inr hmem => exact hpre e'' hmem
  · intro hscans pre e' post heq hpre
    cases pre with
    | nil =>
      cases heq
      exact hscans.1
    | cons e'' pre =>
      cases heq
      exact hscans.2 (hpre e List.mem_cons_self) pre e' post rfl fun e'' hmem => hpre e'' (List.mem_cons_of_mem _ hmem)

theorem any_ne_iff {key : Int} {fs : List MsgFrame} :
    (fs.any fun f => frameKey m f.m_buf ≠ key) = true ↔ ¬∀ f ∈ fs, frameKey m f.m_buf = key := by simp

theorem returns_hasComplete : Returns (hasComplete m entries) ↔ Scans m entries := by
  induction entries with
  | nil => exact iff_of_true returns_ok fun pre e post heq => by simp at heq
  | cons e rest ih =>
    obtain ⟨key, fs⟩ := e
    rw [hasComplete, scans_cons, Keyed]
    split_ifs with hkey hnil hdone
    · exact iff_of_false not_returns_error fun h => any_ne_iff.1 hkey h.1.2
    · exact iff_of_false not_returns_error fun h => h.1.1 hnil
    · exact iff_of_true returns_ok ⟨⟨hnil, not_not.1 (mt any_ne_iff.2 hkey)⟩, fun hfalse => by simp [hdone] at hfalse⟩
    · rw [ih]
      exact ⟨fun h => ⟨⟨hnil, not_not.1 (mt any_ne_iff.2 hkey)⟩, fun _ => h⟩, fun h => h.2 (by simpa using hdone)⟩

/-- The loop finds whether there is one. -/
theorem hasComplete_eq {b : Bool} (hr : hasComplete m entries = .ok b) : b = entries.any fun e => isComplete m e.2 := by
  induction entries with
  | nil =>
    cases hr
    rfl
  | cons e rest ih =>
    obtain ⟨key, fs⟩ := e
    rw [hasComplete] at hr
    split_ifs at hr with hkey hnil hdone
    · cases hr
      simp [hdone]
    · rw [ih hr]
      simp [hdone]

theorem completeEntries_of (hc : Collects m entries) : completeEntries m entries = .ok (completeFrames m entries) := by
  induction entries with
  | nil => rfl
  | cons e rest ih =>
    obtain ⟨key, fs⟩ := e
    obtain ⟨hne, hkey⟩ := hc (key, fs) List.mem_cons_self
    have hrest := ih fun e he => hc e (List.mem_cons_of_mem _ he)
    rw [completeEntries, if_neg hne, completeFrames, List.filter_cons]
    dsimp only at hkey ⊢
    split_ifs with hdone hany
    · exact absurd (hkey hdone) (any_ne_iff.1 hany)
    · rw [hrest]
      rfl
    · exact hrest

theorem returns_completeEntries : Returns (completeEntries m entries) ↔ Collects m entries := by
  refine ⟨fun hr => ?_, fun hc => ⟨_, completeEntries_of hc⟩⟩
  induction entries with
  | nil => exact nofun
  | cons e rest ih =>
    obtain ⟨key, fs⟩ := e
    rw [completeEntries] at hr
    refine List.forall_mem_cons.2 ?_
    split_ifs at hr with hnil hdone hany
    · exact absurd hr not_returns_error
    · exact absurd hr not_returns_error
    · rw [returns_bind] at hr
      exact ⟨⟨hnil, fun _ => not_not.1 (mt any_ne_iff.2 hany)⟩, ih hr.1⟩
    · exact ⟨⟨hnil, fun h => absurd h hdone⟩, ih hr⟩

/-! ## Handing out -/

/-- How long the data of the frames is. -/
def dataLen (m : Mem) (frames : List MsgFrame) : Nat := (frames.map fun f => (MsgHead.load m f.m_buf).nDataLen.toNat).sum

theorem returns_setMsgFrames {m_len : Nat} {fs : List MsgFrame} {data : List UInt8} (hle : data.length ≤ m_len) :
    Returns (setMsgFrames m m_len fs data) ↔ data.length + dataLen m fs ≤ m_len := by
  induction fs generalizing data with
  | nil => exact iff_of_true returns_ok hle
  | cons f fs ih =>
    rw [setMsgFrames, dataLen, List.map_cons, List.sum_cons]
    split_ifs with hlong
    · refine iff_of_false not_returns_error ?_
      omega
    · rw [ih (by rw [List.length_append, length_read]; omega), List.length_append, length_read, dataLen, Nat.add_assoc]

theorem returns_setMsgFrames_nil {m_len : Nat} {fs : List MsgFrame} :
    Returns (setMsgFrames m m_len fs []) ↔ dataLen m fs ≤ m_len := by
  rw [returns_setMsgFrames (Nat.zero_le m_len : ([] : List UInt8).length ≤ m_len), List.length_nil, Nat.zero_add]

/-- The data of a package is no longer than its first frame says, if it is copied. -/
def Packs (h : RecvHandle) (m : Mem) (frames : List MsgFrame) : Prop :=
  ∀ f, frames.head? = some f →
    let head := MsgHead.load m f.m_buf
    0 < head.tDataLen.toNat → h.setPackageInfo head.tDataLen.toNat head.tSrcLen.toNat = true → h.alloc head.tSrcLen.toNat = true →
      dataLen m frames ≤ head.tSrcLen.toNat

theorem returns_handOutOne (now : Int) {frames : List MsgFrame} : Returns (s.handOutOne h now frames) ↔ Packs h s.mem frames := by
  cases frames with
  | nil => exact iff_of_true returns_ok nofun
  | cons f fs =>
    simp only [handOutOne, Packs, isBaseProtocolPackage, List.head?_cons, Option.some.injEq, forall_eq', Bool.false_eq_true,
      if_false]
    split_ifs with hdata hinfo halloc
    · rw [returns_bind, returns_setMsgFrames_nil]
      refine ⟨fun hpacks _ _ _ => hpacks.1, fun hpacks => ⟨hpacks hdata hinfo halloc, fun data _ => ?_⟩⟩
      split_ifs
      · cases h.process data <;> exact returns_ok
      · exact returns_ok
    all_goals simp_all

theorem mem_handOutOne {frames : List MsgFrame} (hr : s.handOutOne h now frames = .ok s') : s'.mem = s.mem := by
  cases frames with
  | nil =>
    cases hr
    rfl
  | cons f fs =>
    simp only [handOutOne, isBaseProtocolPackage, Bool.false_eq_true, if_false] at hr
    split_ifs at hr
    · obtain ⟨data, -, hr⟩ := bind_eq_ok.1 hr
      split_ifs at hr
      · cases hp : h.process data with
        | none =>
          rw [hp] at hr
          cases hr
          rfl
        | some data' =>
          rw [hp] at hr
          cases hr
          rfl
      · cases hr
        rfl
    all_goals
      cases hr
      rfl

theorem returns_handOutAll (now : Int) {l : List (List MsgFrame)} :
    Returns (l.foldlM (handOutOne h now) s) ↔ ∀ frames ∈ l, Packs h s.mem frames := by
  induction l generalizing s with
  | nil => exact iff_of_true ⟨s, List.foldlM_nil⟩ nofun
  | cons frames l ih =>
    rw [List.foldlM_cons, returns_bind, returns_handOutOne, List.forall_mem_cons]
    refine and_congr_right fun hone => ?_
    refine ⟨?_, ?_⟩
    · intro hrest
      obtain ⟨t, ht⟩ := (returns_handOutOne now).2 hone
      exact mem_handOutOne ht ▸ ih.1 (hrest t ht)
    · intro hrest t ht
      rw [ih, mem_handOutOne ht]
      exact hrest

/-! ## The last place -/

theorem mem_completeFrames {frames : List MsgFrame} : frames ∈ completeFrames m entries ↔ ∃ e ∈ entries, isComplete m e.2 = true ∧ e.2 = frames := by
  simp [completeFrames, and_assoc]

/-- A complete entry begins with a frame of its timestamp. -/
theorem Collects.head (hc : Collects m entries) (he : e ∈ entries) (hdone : isComplete m e.2 = true) :
    ∃ f fs, e.2 = f :: fs ∧ frameKey m f.m_buf = e.1 := by
  obtain ⟨key, frames⟩ := e
  cases frames with
  | nil => exact absurd rfl (hc _ he).1
  | cons f fs => exact ⟨f, fs, rfl, (hc _ he).2 hdone f List.mem_cons_self⟩

theorem returns_lastPlace (nIndex : Option Nat) (hc : Collects s.mem s.m_mapFrames.entries)
    (hany : (s.m_mapFrames.entries.any fun e => isComplete s.mem e.2) = true) :
    Returns (s.lastPlace h nIndex (completeFrames s.mem s.m_mapFrames.entries)) := by
  rw [lastPlace]
  split_ifs with hlast
  · obtain ⟨e, he, hdone⟩ := List.any_eq_true.1 hany
    have hne : completeFrames s.mem s.m_mapFrames.entries ≠ [] := List.ne_nil_of_mem (mem_completeFrames.2 ⟨e, he, hdone, rfl⟩)
    obtain ⟨frames, hget⟩ : ∃ frames, (completeFrames s.mem s.m_mapFrames.entries).getLast? = some frames :=
      ⟨_, List.getLast?_eq_some_getLast hne⟩
    obtain ⟨e', he', hdone', heq⟩ := mem_completeFrames.1 (List.mem_of_mem_getLast? hget)
    obtain ⟨f, fs, hframes, hkey⟩ := hc.head he' hdone'
    have hfind : s.m_mapFrames.find? (frameKey s.mem f.m_buf) = some e'.2 := by
      rw [hkey]
      exact StdMap.find?_eq_some.2 he'
    rw [← heq, hframes] at hget
    rw [lastIndex, hget]
    dsimp only
    rw [hfind]
    dsimp only
    cases s.m_mapFrames.entries.find? fun e => frameKey s.mem f.m_buf < e.1 <;> exact returns_ok
  · exact returns_ok

/-- The memory stays, and so do the keys. -/
theorem lastPlace_keeps {nIndex : Option Nat} {vecFrames : List (List MsgFrame)} {i : Int}
    (hr : s.lastPlace h nIndex vecFrames = .ok (s', i)) :
    s'.mem = s.mem ∧ ∀ k, (s'.m_mapFrames.find? k).isSome = (s.m_mapFrames.find? k).isSome := by
  rw [lastPlace] at hr
  split_ifs at hr with hlast
  · rw [lastIndex] at hr
    cases hl : vecFrames.getLast? with
    | none =>
      rw [hl] at hr
      cases hr
    | some frames =>
      rw [hl] at hr
      cases frames with
      | nil => cases hr
      | cons f fs =>
        dsimp only at hr
        cases hf : s.m_mapFrames.find? (frameKey s.mem f.m_buf) with
        | none =>
          rw [hf] at hr
          cases hr
        | some frames =>
          rw [hf] at hr
          dsimp only at hr
          split at hr <;> cases hr <;> exact ⟨rfl, fun _ => StdMap.isSome_find?_set⟩
  · cases hr
    exact ⟨rfl, fun _ => rfl⟩

theorem mem_eraseEntries {vecFrames : List (List MsgFrame)} (hr : s.eraseEntries vecFrames = .ok s') : s'.mem = s.mem := by
  induction vecFrames generalizing s with
  | nil =>
    cases hr
    rfl
  | cons frames rest ih =>
    cases frames with
    | nil => cases hr
    | cons f fs =>
      rw [eraseEntries] at hr
      cases hf : s.m_mapFrames.find? (frameKey s.mem f.m_buf) with
      | none =>
        rw [hf] at hr
        cases hr
      | some frames =>
        rw [hf] at hr
        have hrest := ih hr
        exact hrest

/-- Entries that are all in the map can be erased one after the other. -/
theorem returns_eraseEntries {es : List (Int × List MsgFrame)} (hkeys : (es.map (·.1)).Nodup)
    (hin : ∀ e ∈ es, (s.m_mapFrames.find? e.1).isSome = true) (hhead : ∀ e ∈ es, ∃ f fs, e.2 = f :: fs ∧ frameKey s.mem f.m_buf = e.1) :
    Returns (s.eraseEntries (es.map (·.2))) := by
  induction es generalizing s with
  | nil => exact returns_ok
  | cons e es ih =>
    obtain ⟨f, fs, hframes, hkey⟩ := hhead e List.mem_cons_self
    obtain ⟨hnot, hkeys⟩ := List.nodup_cons.1 hkeys
    obtain ⟨frames, hfind⟩ := Option.isSome_iff_exists.1 (hin e List.mem_cons_self)
    rw [List.map_cons, hframes, eraseEntries, hkey, hfind]
    refine ih hkeys (fun e' he' => ?_) fun e' he' => hhead e' (List.mem_cons_of_mem _ he')
    have hne : e'.1 ≠ e.1 := fun heq => hnot (List.mem_map.2 ⟨e', he', heq⟩)
    rw [StdMap.find?_erase_ne hne]
    exact hin e' (List.mem_cons_of_mem _ he')

/-! ## A whole pass -/

/-- Where the next request goes after a complete package, among `n` buffers. -/
def afterPlace (n : Nat) (nIndex : Option Nat) (nLastIndex : Int) : Int :=
  match nIndex with
  | none => 0
  | some i => if i + 1 = n then (i : Int) - nLastIndex + 1 else (i : Int) + 1

theorem returns_placeAfter {nIndex : Option Nat} {nLastIndex : Int} :
    Returns (s.placeAfter nIndex nLastIndex) ↔ (nIndex.map (· + 1) = some s.m_RecvBuf.length → 0 < nLastIndex) := by
  cases nIndex with
  | none => simp [placeAfter]
  | some i =>
    rw [placeAfter, Option.map_some, Option.some.injEq]
    split_ifs with hlast hpos
    · exact iff_of_true returns_ok fun _ => hpos
    · exact iff_of_false not_returns_error fun h => hpos (h hlast)
    · exact iff_of_true returns_ok fun h => absurd h hlast

theorem placeAfter_eq {nIndex : Option Nat} {nLastIndex place : Int} (hr : s.placeAfter nIndex nLastIndex = .ok (s', place)) :
    place = afterPlace s.m_RecvBuf.length nIndex nLastIndex := by
  cases nIndex with
  | none =>
    cases hr
    rfl
  | some i =>
    rw [placeAfter] at hr
    rw [afterPlace]
    split_ifs at hr ⊢ with hlast <;> cases hr <;> rfl

theorem returns_postAfter {place : Int} {nIndex : Option Nat} :
    Returns (s.postAfter place nIndex) ↔ (s.m_bOnline = true → (place % 16).toNat < s.m_RecvBuf.length) := by
  have hk : Kept s (s.resetRecvFlagInfo place) := kept_resetRecvFlagInfo
  have hlen := hk.length_eq
  rw [postAfter, postRecv]
  dsimp only
  rw [hk.online, hlen]
  split_ifs with honline hout
  · refine iff_of_false not_returns_error fun h => ?_
    have := h honline
    omega
  · rw [returns_bind, returns_buf, hlen]
    simp [honline]
  · exact iff_of_true returns_ok fun h => absurd h honline

/-- What is complete can be copied, and the buffer of the request behind it is there. -/
def HandsOut (h : RecvHandle) (s : RecvSession) (bFinshPackage : Bool) : Prop :=
  Collects s.mem s.m_mapFrames.entries ∧
    (∀ frames ∈ completeFrames s.mem s.m_mapFrames.entries, Packs h s.mem frames) ∧
    ∀ s₁ nLastIndex, s.lastPlace h s.firstExtend (completeFrames s.mem s.m_mapFrames.entries) = .ok (s₁, nLastIndex) →
      (s.firstExtend.map (· + 1) = some s.m_RecvBuf.length → 0 < nLastIndex) ∧
      (bFinshPackage = true → s.m_bOnline = true →
        (afterPlace s.m_RecvBuf.length s.firstExtend nLastIndex % 16).toNat < s.m_RecvBuf.length)

/-- What `handOut` does when the entries have left the map. -/
theorem returns_handedOut {b : Bool} {nIndex : Option Nat} {nLastIndex : Int} {vecFrames : List (List MsgFrame)} :
    Returns (do
      let s ← vecFrames.foldlM (handOutOne h now) s
      let (s, place) ← s.placeAfter nIndex nLastIndex
      if b then s.postAfter place nIndex else .ok s) ↔
    (∀ frames ∈ vecFrames, Packs h s.mem frames) ∧ (nIndex.map (· + 1) = some s.m_RecvBuf.length → 0 < nLastIndex) ∧
      (b = true → s.m_bOnline = true → (afterPlace s.m_RecvBuf.length nIndex nLastIndex % 16).toNat < s.m_RecvBuf.length) := by
  rw [returns_bind, returns_handOutAll]
  refine and_congr_right fun hpacks => ?_
  obtain ⟨s₁, hout⟩ := (returns_handOutAll now).2 hpacks
  have hk₁ : Kept s s₁ := foldlM_run (Kept s) hout (.refl s) fun _ _ _ _ hk hone => hk.trans (kept_handOutOne hone)
  simp only [hout, Except.ok.injEq, forall_eq']
  rw [returns_bind, returns_placeAfter, hk₁.length_eq]
  refine and_congr_right fun hlast => ?_
  obtain ⟨⟨s₂, place⟩, hplace⟩ := returns_placeAfter.2 (hk₁.length_eq ▸ hlast)
  have hk₂ := hk₁.trans (kept_placeAfter hplace)
  simp only [hplace, Except.ok.injEq, forall_eq']
  split_ifs with hb
  · rw [returns_postAfter, hk₂.online, hk₂.length_eq, placeAfter_eq hplace, hk₁.length_eq]
    simp [hb]
  · exact iff_of_true returns_ok fun h => absurd h hb

theorem returns_handOut {b : Bool} (hany : (s.m_mapFrames.entries.any fun e => isComplete s.mem e.2) = true) :
    Returns (s.handOut h now b) ↔ s.HandsOut h b := by
  rw [handOut, returns_bind, returns_completeEntries, HandsOut]
  refine and_congr_right fun hc => ?_
  rw [completeEntries_of hc]
  obtain ⟨⟨s₁, nLastIndex⟩, hlast⟩ := returns_lastPlace (h := h) s.firstExtend hc hany
  obtain ⟨hmem, hkeys⟩ := lastPlace_keeps hlast
  -- an entry of `vecFrames` is in the map until its turn comes
  obtain ⟨s₂, herase⟩ : Returns (s₁.eraseEntries (completeFrames s.mem s.m_mapFrames.entries)) := by
    refine returns_eraseEntries (s.m_mapFrames.nodup_keys.sublist (List.filter_sublist.map _)) (fun e he => ?_) fun e he => ?_
    · rw [hkeys, StdMap.find?_eq_some.2 (List.mem_of_mem_filter he), Option.isSome_some]
    · rw [hmem]
      exact hc.head (List.mem_of_mem_filter he) (List.mem_filter.1 he).2
  have hk := (kept_lastPlace hlast).trans (kept_eraseEntries herase)
  simp only [Except.ok.injEq, forall_eq']
  rw [returns_bind_of hlast, returns_bind_of herase, returns_handedOut, mem_eraseEntries herase, hmem, hk.length_eq, hk.online,
    hlast]
  exact and_congr_right fun _ => ⟨fun h s' i heq => by cases heq; exact h, fun h => h _ _ rfl⟩

/-- What is complete, if anything is, can be handed out. -/
def Delivers (h : RecvHandle) (s : RecvSession) (bFinshPackage : Bool) : Prop :=
  Scans s.mem s.m_mapFrames.entries ∧
    ((s.m_mapFrames.entries.any fun e => isComplete s.mem e.2) = true → s.HandsOut h bFinshPackage)

theorem returns_deliver {b : Bool} : Returns (s.deliver h now b) ↔ s.Delivers h b := by
  rw [deliver, returns_bind, returns_hasComplete, Delivers]
  refine and_congr_right fun hscans => ?_
  obtain ⟨bfinishR, hr⟩ := returns_hasComplete.2 hscans
  simp only [hr, Except.ok.injEq, forall_eq']
  rw [← hasComplete_eq hr]
  split_ifs with hany
  · rw [forall_prop_of_true hany, returns_handOut (hasComplete_eq hr ▸ hany)]
  · exact iff_of_true returns_ok fun h => absurd h hany

theorem returns_goOn {bFlag : Bool} (hcur : cur < s.m_RecvBuf.length) :
    Returns (s.goOn h cur stamp bFlag) ↔ (bFlag = false → s.PostsNext h cur stamp) := by
  rw [goOn]
  split_ifs with hflag
  · simp [hflag]
  · rw [returns_postNext hcur]
    simp [hflag]

/-- What a completion needs of the session for its pass to come to the end. -/
def Passes (h : RecvHandle) (s : RecvSession) (io : TmpPerIO) : Prop :=
  io.nIndex < s.m_RecvBuf.length → s.Takes io.nIndex io ∧
    ∀ s₁ stamp bFlag, s.takeData io.nIndex io = .ok (s₁, some stamp, bFlag) →
      (bFlag = false → s₁.PostsNext h io.nIndex stamp) ∧
      ∀ s₂ b, s₁.goOn h io.nIndex stamp bFlag = .ok (s₂, b) → s₂.Delivers h b

theorem returns_parseOne : Returns (s.parseOne h now io) ↔ s.Passes h io := by
  rw [parseOne, Passes]
  split_ifs with hcur
  · rw [forall_prop_of_true hcur, returns_bind, returns_takeData hcur]
    refine and_congr_right fun _ => ?_
    simp only [Prod.forall]
    refine forall_congr' fun s₁ => ⟨fun hr stamp bFlag htake => ?_, fun hr stamp bFlag htake => ?_⟩
    · have hlen := (kept_takeData htake).length_eq
      have hgo := hr (some stamp) bFlag htake
      rw [returns_bind, returns_goOn (hlen ▸ hcur)] at hgo
      exact ⟨hgo.1, fun s₂ b hb => returns_deliver.1 (hgo.2 (s₂, b) hb)⟩
    · cases stamp with
      | none => exact returns_ok
      | some stamp =>
        have hlen := (kept_takeData htake).length_eq
        obtain ⟨hnext, hdeliver⟩ := hr stamp bFlag htake
        dsimp only
        rw [returns_bind, returns_goOn (hlen ▸ hcur)]
        exact ⟨hnext, fun r hb => returns_deliver.2 (hdeliver r.1 r.2 hb)⟩
  · exact iff_of_true returns_ok fun h => absurd h hcur

/-- `ParseData` returns exactly when every pass of its loop meets its guards. -/
theorem returns_parseData : Returns (s.parseData h now) ↔ Along (parseOne h now) (Passes h) s s.m_perIoDatas := by
  rw [parseData, returns_bind, returns_foldlM, and_iff_left fun _ _ => returns_ok]
  exact along_congr (fun _ => True) trivial (fun _ _ _ => returns_parseOne) fun _ _ _ _ _ _ => trivial

end RecvSession
