/-
What no call of the receiving half changes: where the buffers lie, whether the
session is online, and the time of the last heartbeat.
-/
import XFramework.Net.RecvSession

open Bytes Fallible

namespace PackPerData

/-- Where the buffer lies. -/
def place (d : PackPerData) : Int × Nat := (d.m_frame.m_buf, d.m_frame.len)

variable {d d' : PackPerData} {m : Mem}

theorem place_moveExtendData : (d.moveExtendData m).1.place = d.place := by
  rw [moveExtendData]
  cases d.m_pExtendStart with
  | none => rfl
  | some p =>
    dsimp only
    split_ifs <;> rfl

theorem place_joined {copied len : Nat} {j : JoinedPrev} (hj : d.joined m copied len = .ok j) : j.prev.place = d.place := by
  simp only [joined] at hj
  split_ifs at hj
  · obtain ⟨-, -, hj⟩ := bind_eq_ok.1 hj
    cases hj
    rfl
  · cases hj
    rfl

theorem place_joinPrev {buf : Int} {len : Nat} {j : JoinedPrev} (hj : joinPrev m buf d len = .ok j) : j.prev.place = d.place := by
  rw [joinPrev] at hj
  obtain ⟨⟨m', copied, len'⟩, -, hj⟩ := bind_eq_ok.1 hj
  exact (place_joined hj).trans place_moveExtendData

theorem place_recvOwn {pdata : Int} {len : Nat} {pPrev : Option Nat} {r : Option PostReq × Int}
    (hr : d.recvOwn m pdata len pPrev = .ok (d', r)) : d'.place = d.place := by
  simp only [recvOwn] at hr
  split_ifs at hr <;> cases hr <;> rfl

theorem place_getOtherFrameCount : (d.getOtherFrameCount m).1.place = d.place := rfl

theorem place_postRecv {pStart : Option Nat} : (d.postRecv pStart).1.place = d.place := by
  rw [postRecv]
  split_ifs <;> rfl

theorem place_resetIndex {index : Nat} : (d.resetIndex index).place = d.place := rfl

end PackPerData

namespace RecvSession

/-- What stays as it is. -/
structure Kept (s s' : RecvSession) : Prop where
  places : s'.m_RecvBuf.map PackPerData.place = s.m_RecvBuf.map PackPerData.place
  online : s'.m_bOnline = s.m_bOnline
  heartbitTime : s'.m_heartbitTime = s.m_heartbitTime

variable {h : RecvHandle} {now : Int} {s s' s'' : RecvSession}

theorem Kept.refl (s : RecvSession) : Kept s s := ⟨rfl, rfl, rfl⟩

theorem Kept.trans (h₁ : Kept s s') (h₂ : Kept s' s'') : Kept s s'' :=
  ⟨h₂.places.trans h₁.places, h₂.online.trans h₁.online, h₂.heartbitTime.trans h₁.heartbitTime⟩

theorem buf_eq_ok {i : Nat} {d : PackPerData} : s.buf i = .ok d ↔ s.m_RecvBuf[i]? = some d := by
  rw [buf]
  cases s.m_RecvBuf[i]? <;> simp

/-- A buffer is replaced by one in the same place. -/
theorem map_place_set {l : List PackPerData} {i : Nat} {d d' : PackPerData} (hd : l[i]? = some d) (hp : d'.place = d.place) :
    (l.set i d').map PackPerData.place = l.map PackPerData.place := by
  rw [List.map_set, hp]
  refine List.ext_getElem? fun k => ?_
  rw [List.getElem?_set]
  split_ifs with hk hlt
  · rw [← hk, List.getElem?_map, hd]
    rfl
  · rw [← hk, List.getElem?_eq_none (by simpa using hlt)]
  · rfl

theorem map_place_mapIdx {l : List PackPerData} {f : Nat → PackPerData → PackPerData} (hf : ∀ i d, (f i d).place = d.place) :
    (l.mapIdx f).map PackPerData.place = l.map PackPerData.place := by
  refine List.ext_getElem? fun k => ?_
  rw [List.getElem?_map, List.getElem?_mapIdx, List.getElem?_map]
  cases l[k]? with
  | none => rfl
  | some d => exact congrArg some (hf k d)

theorem kept_store {i : Nat} {d d' : PackPerData} (req : Option PostReq) (hd : s.buf i = .ok d) (hp : d'.place = d.place) :
    Kept s (s.store i d' req) := ⟨map_place_set (buf_eq_ok.1 hd) hp, rfl, rfl⟩

theorem kept_enterFrame {f : MsgFrame} : Kept s (s.enterFrame f) := ⟨rfl, rfl, rfl⟩

theorem kept_enterFrames {fs : List MsgFrame} : Kept s (fs.foldl enterFrame s) := by
  induction fs generalizing s with
  | nil => exact .refl s
  | cons f fs ih => exact kept_enterFrame.trans ih

theorem kept_joinData {cur : Nat} {io : TmpPerIO} {m : Mem} {bufs : List PackPerData} {r : Nat × Bool}
    (hr : s.joinData cur io = .ok (m, bufs, r)) : Kept s { s with mem := m, m_RecvBuf := bufs } := by
  rw [joinData] at hr
  cases hp : io.pPrevIOData with
  | none =>
    rw [hp] at hr
    cases hr
    exact .refl s
  | some p =>
    rw [hp] at hr
    obtain ⟨d, -, hr⟩ := bind_eq_ok.1 hr
    obtain ⟨prev, hprev, hr⟩ := bind_eq_ok.1 hr
    split_ifs at hr with hleft
    · obtain ⟨j, hj, hr⟩ := bind_eq_ok.1 hr
      cases hr
      exact ⟨map_place_set (buf_eq_ok.1 hprev) (PackPerData.place_joinPrev hj), rfl, rfl⟩
    · cases hr
      exact .refl s

theorem kept_recvData {cur : Nat} {io : TmpPerIO} {ret : Int} {nFlag : Bool} (hr : s.recvData cur io = .ok (s', ret, nFlag)) :
    Kept s s' := by
  rw [recvData] at hr
  obtain ⟨⟨m, bufs, len, nFlag'⟩, hjoin, hr⟩ := bind_eq_ok.1 hr
  obtain ⟨d, hd, hr⟩ := bind_eq_ok.1 hr
  obtain ⟨⟨d', req, ret'⟩, hown, hr⟩ := bind_eq_ok.1 hr
  cases hr
  exact (kept_joinData hjoin).trans (kept_store _ hd (PackPerData.place_recvOwn hown))

theorem kept_takePrev {cur : Nat} {nFlag : Bool} {stamp : Option Int} (hr : s.takePrev cur nFlag = .ok (s', stamp)) :
    Kept s s' := by
  rw [takePrev] at hr
  split_ifs at hr
  · obtain ⟨d, -, hr⟩ := bind_eq_ok.1 hr
    cases hp : d.m_pPrevPerData with
    | none =>
      rw [hp] at hr
      cases hr
      exact .refl s
    | some p =>
      rw [hp] at hr
      obtain ⟨prev, -, hr⟩ := bind_eq_ok.1 hr
      obtain ⟨prev', -, hr⟩ := bind_eq_ok.1 hr
      cases hr
      exact kept_enterFrame
  · cases hr
    exact .refl s

theorem kept_takeOwn {cur : Nat} {ret : Int} {stamp stamp' : Option Int} (hr : s.takeOwn cur ret stamp = .ok (s', stamp')) :
    Kept s s' := by
  rw [takeOwn] at hr
  obtain ⟨d, hd, hr⟩ := bind_eq_ok.1 hr
  split_ifs at hr with hfull
  · cases hr
    have hstore := kept_store none hd (PackPerData.place_getOtherFrameCount (d := d.setNoticeStatus false) (m := s.mem))
    exact hstore.trans kept_enterFrames
  · cases hr
    exact .refl s

theorem kept_takeData {cur : Nat} {io : TmpPerIO} {r : Option Int × Bool} (hr : s.takeData cur io = .ok (s', r)) : Kept s s' := by
  rw [takeData] at hr
  obtain ⟨⟨s₁, ret, nFlag⟩, h₁, hr⟩ := bind_eq_ok.1 hr
  obtain ⟨⟨s₂, stamp⟩, h₂, hr⟩ := bind_eq_ok.1 hr
  obtain ⟨⟨s₃, stamp'⟩, h₃, hr⟩ := bind_eq_ok.1 hr
  cases hr
  exact ((kept_recvData h₁).trans (kept_takePrev h₂)).trans (kept_takeOwn h₃)

theorem kept_nextPlace {cur : Nat} {frames : List MsgFrame} : Kept s (s.nextPlace cur frames) := by
  simp only [nextPlace]
  split_ifs
  · exact ⟨map_place_mapIdx fun i d => PackPerData.place_resetIndex, rfl, rfl⟩
  · exact .refl s
  · exact ⟨rfl, rfl, rfl⟩

theorem kept_postNext {cur : Nat} {stamp : Int} {b : Bool} (hr : s.postNext h cur stamp = .ok (s', b)) : Kept s s' := by
  rw [postNext] at hr
  cases hf : s.m_mapFrames.find? stamp with
  | none =>
    rw [hf] at hr
    cases hr
    exact ⟨rfl, rfl, rfl⟩
  | some fs =>
    rw [hf] at hr
    cases fs with
    | nil => cases hr
    | cons f fs =>
      dsimp only at hr
      split_ifs at hr
      · obtain ⟨d, -, hr⟩ := bind_eq_ok.1 hr
        obtain ⟨d', hd', hr⟩ := bind_eq_ok.1 hr
        cases hr
        have hset : Kept s { s with m_mapFrames := s.m_mapFrames.set stamp (h.sort (f :: fs)) } := ⟨rfl, rfl, rfl⟩
        exact (hset.trans kept_nextPlace).trans (kept_store _ hd' PackPerData.place_postRecv)
      · cases hr
        exact ⟨rfl, rfl, rfl⟩

theorem kept_lastIndex {vecFrames : List (List MsgFrame)} {i : Int} (hr : s.lastIndex h vecFrames = .ok (s', i)) : Kept s s' := by
  rw [lastIndex] at hr
  cases hl : vecFrames.getLast? with
  | none =>
    rw [hl] at hr
    cases hr
  | some fs =>
    rw [hl] at hr
    cases fs with
    | nil => cases hr
    | cons f fs =>
      dsimp only at hr
      cases hf : s.m_mapFrames.find? (frameKey s.mem f.m_buf) with
      | none =>
        rw [hf] at hr
        cases hr
      | some fs' =>
        rw [hf] at hr
        dsimp only at hr
        split at hr <;> cases hr <;> exact ⟨rfl, rfl, rfl⟩

theorem kept_eraseEntries {vecFrames : List (List MsgFrame)} (hr : s.eraseEntries vecFrames = .ok s') : Kept s s' := by
  induction vecFrames generalizing s with
  | nil =>
    cases hr
    exact .refl _
  | cons fs rest ih =>
    cases fs with
    | nil => cases hr
    | cons f fs =>
      rw [eraseEntries] at hr
      cases hf : s.m_mapFrames.find? (frameKey s.mem f.m_buf) with
      | none =>
        rw [hf] at hr
        cases hr
      | some fs' =>
        rw [hf] at hr
        have hone : Kept s { s with m_mapFrames := s.m_mapFrames.erase (frameKey s.mem f.m_buf) } := ⟨rfl, rfl, rfl⟩
        exact hone.trans (ih hr)

/-- No package is one of the base protocol. -/
theorem kept_handOutOne {frames : List MsgFrame} (hr : s.handOutOne h now frames = .ok s') : Kept s s' := by
  cases frames with
  | nil =>
    cases hr
    exact .refl s
  | cons f fs =>
    rw [handOutOne] at hr
    simp only [isBaseProtocolPackage, Bool.false_eq_true, if_false] at hr
    split_ifs at hr
    · obtain ⟨data, -, hr⟩ := bind_eq_ok.1 hr
      split_ifs at hr
      · cases hp : h.process data with
        | none =>
          rw [hp] at hr
          cases hr
          exact .refl s
        | some data' =>
          rw [hp] at hr
          cases hr
          exact ⟨rfl, rfl, rfl⟩
      · cases hr
        exact .refl s
    all_goals
      cases hr
      exact .refl s

theorem kept_placeAfter {nIndex : Option Nat} {nLastIndex place : Int} (hr : s.placeAfter nIndex nLastIndex = .ok (s', place)) :
    Kept s s' := by
  cases nIndex with
  | none =>
    cases hr
    exact .refl s
  | some i =>
    rw [placeAfter] at hr
    split_ifs at hr
    · cases hr
      exact ⟨map_place_mapIdx fun i d => PackPerData.place_resetIndex, rfl, rfl⟩
    · cases hr
      exact .refl s

theorem kept_resetRecvFlagInfo {nIndex : Int} : Kept s (s.resetRecvFlagInfo nIndex) := by
  rw [resetRecvFlagInfo]
  split_ifs
  · exact ⟨map_place_mapIdx fun i d => by split_ifs <;> rfl, rfl, rfl⟩
  · exact .refl s

theorem kept_postRecv {index : Int} {pStart : Option Nat} (hr : s.postRecv index pStart = .ok s') : Kept s s' := by
  rw [postRecv] at hr
  split_ifs at hr
  · obtain ⟨d, hd, hr⟩ := bind_eq_ok.1 hr
    cases hr
    exact kept_store _ hd PackPerData.place_postRecv
  · cases hr
    exact .refl s

theorem kept_lastPlace {nIndex : Option Nat} {vecFrames : List (List MsgFrame)} {i : Int}
    (hr : s.lastPlace h nIndex vecFrames = .ok (s', i)) : Kept s s' := by
  rw [lastPlace] at hr
  split_ifs at hr
  · exact kept_lastIndex hr
  · cases hr
    exact .refl s

theorem kept_postAfter {place : Int} {nIndex : Option Nat} (hr : s.postAfter place nIndex = .ok s') : Kept s s' := by
  have hreset : Kept s (s.resetRecvFlagInfo place) := kept_resetRecvFlagInfo
  have hindex : Kept s { s.resetRecvFlagInfo place with m_rPostIndex := (place % 16).toNat } :=
    ⟨hreset.places, hreset.online, hreset.heartbitTime⟩
  exact hindex.trans (kept_postRecv hr)

theorem kept_handOut {b : Bool} (hr : s.handOut h now b = .ok s') : Kept s s' := by
  rw [handOut] at hr
  obtain ⟨vecFrames, -, hr⟩ := bind_eq_ok.1 hr
  obtain ⟨⟨s₁, nLastIndex⟩, hlast, hr⟩ := bind_eq_ok.1 hr
  obtain ⟨s₂, herase, hr⟩ := bind_eq_ok.1 hr
  obtain ⟨s₃, hout, hr⟩ := bind_eq_ok.1 hr
  obtain ⟨⟨s₄, place⟩, hplace, hr⟩ := bind_eq_ok.1 hr
  have h₂ : Kept s s₂ := (kept_lastPlace hlast).trans (kept_eraseEntries herase)
  have h₃ : Kept s s₃ := foldlM_run (Kept s) hout h₂ fun _ _ _ _ hk hone => hk.trans (kept_handOutOne hone)
  have h₄ := h₃.trans (kept_placeAfter hplace)
  dsimp only at hr
  split_ifs at hr
  · exact h₄.trans (kept_postAfter hr)
  · cases hr
    exact h₄

theorem kept_goOn {cur : Nat} {stamp : Int} {bFlag b : Bool} (hr : s.goOn h cur stamp bFlag = .ok (s', b)) : Kept s s' := by
  rw [goOn] at hr
  split_ifs at hr
  · cases hr
    exact .refl s
  · exact kept_postNext hr

theorem kept_deliver {b : Bool} (hr : s.deliver h now b = .ok s') : Kept s s' := by
  rw [deliver] at hr
  obtain ⟨bfinishR, -, hr⟩ := bind_eq_ok.1 hr
  split_ifs at hr
  · exact kept_handOut hr
  · cases hr
    exact .refl s

theorem kept_parseOne {io : TmpPerIO} (hr : s.parseOne h now io = .ok s') : Kept s s' := by
  rw [parseOne] at hr
  split_ifs at hr
  · obtain ⟨⟨s₁, stamp, bFlag⟩, htake, hr⟩ := bind_eq_ok.1 hr
    cases stamp with
    | none =>
      cases hr
      exact kept_takeData htake
    | some stamp =>
      dsimp only at hr
      obtain ⟨⟨s₂, b⟩, hnext, hr⟩ := bind_eq_ok.1 hr
      exact ((kept_takeData htake).trans (kept_goOn hnext)).trans (kept_deliver hr)
  · cases hr
    exact .refl s

theorem kept_parseData (hr : s.parseData h now = .ok s') : Kept s s' := by
  rw [parseData] at hr
  obtain ⟨s₁, hloop, hr⟩ := bind_eq_ok.1 hr
  have h₁ : Kept s s₁ := foldlM_run (Kept s) hloop (.refl s) fun _ _ _ _ hk hone => hk.trans (kept_parseOne hone)
  cases hr
  exact ⟨h₁.places, h₁.online, h₁.heartbitTime⟩

theorem kept_dispatchData {io : TmpPerIO} (hr : s.dispatchData io = .ok s') : Kept s s' := by
  rw [dispatchData] at hr
  split_ifs at hr <;> cases hr <;> exact ⟨rfl, rfl, rfl⟩

theorem kept_step {a : Action} (hr : s.step h a = .ok s') : Kept s s' := by
  cases a with
  | arrive bs =>
    rw [step, complete] at hr
    cases hp : s.posted with
    | nil =>
      rw [hp] at hr
      cases hr
    | cons req posted =>
      rw [hp] at hr
      dsimp only at hr
      split_ifs at hr
      have hwrite : Kept s { s with mem := write s.mem req.pStart bs, posted := posted } := ⟨rfl, rfl, rfl⟩
      exact hwrite.trans (kept_dispatchData hr)
  | parse now => exact kept_parseData hr

end RecvSession
