/-
What the reader task keeps of the bytes it receives.

A request is published only when one `recv` fills all of it: the test compares
what `recv` returned with the whole length, and a failed `recv` puts the
request back without what has been read. In runs in which every `recv` that
returns bytes fills its request, the bytes published are the bytes received
(`lossless_run`).

While a task works, the bytes published and the buffers that wait, the one in
hand first, do not overlap (`Reading`).
-/
import XFramework.Net.AsyncServer
import XFramework.Lib.Fallible

open Bytes Fallible

namespace AsyncNet

/-! ## What is published and what waits -/

/-- A piece of memory: where it starts and how long it is. -/
abbrev Piece := Int × Nat

/-- No byte is in both. -/
def Apart (a b : Piece) : Prop := a.2 = 0 ∨ b.2 = 0 ∨ a.1 + a.2 ≤ b.1 ∨ b.1 + b.2 ≤ a.1

instance (a b : Piece) : Decidable (Apart a b) := inferInstanceAs (Decidable (_ ∨ _))

def MemNode.piece (n : MemNode) : Piece := (n.pData.getD 0, if n.pData.isSome then n.nCount else 0)

def SPostReq.piece (r : SPostReq) : Piece := (r.pData.getD 0, if r.pData.isSome then r.nTrans else 0)

/-- The bytes a completed request designates. -/
def SPostReq.bytes (r : SPostReq) (m : Mem) : List UInt8 := read m r.piece.1 r.piece.2

namespace AsyncServer

/-- The requests published for a socket that `GetQueueComplateStatus` accepts. -/
def published (s : AsyncServer) (fd : Nat) : List SPostReq := s.m_data.filter fun r => r.valid && r.cSock == (fd : Int)

def handed (s : AsyncServer) (fd : Nat) : List UInt8 := (s.published fd).flatMap fun r => r.bytes s.mem

/-- The requests that wait for a socket. -/
def queue (s : AsyncServer) (fd : Nat) : List MemNode := (s.m_ReadQue.find? fd).getD []

/-- The bytes kept in the request at the front. -/
def kept (s : AsyncServer) (fd : Nat) : List UInt8 :=
  match s.queue fd with
  | n :: _ => read s.mem (n.pData.getD 0) n.nTrans
  | [] => []

/-- A read request as it is made: nothing filled, and no size for `Reset` to clear. -/
def Unread (n : MemNode) : Prop := n.nTrans = 0 ∧ n.nSize = 0 ∧ n.oType = .OP_READ

instance (n : MemNode) : Decidable (Unread n) := inferInstanceAs (Decidable (_ ∧ _))

/-- With `received` published so far and the requests `hand` taken from the queue. -/
structure Reading (fd : Nat) (s : AsyncServer) (received : List UInt8) (hand : List MemNode) : Prop where
  running : s.m_bRun = true
  handed : s.handed fd = received
  unread : ∀ n ∈ hand ++ s.queue fd, Unread n
  apart : ((s.published fd).map SPostReq.piece ++ (hand ++ s.queue fd).map MemNode.piece).Pairwise Apart

variable {fd : Nat} {s : AsyncServer} {received bs : List UInt8} {node : MemNode} {q : DispatchData} {r : TaskRun}
  {results : List RecvResult}

theorem produceNode_running (h : s.m_bRun = true) (c : SPostReq) : s.produceNode c = { s with m_data := s.m_data ++ [c] } :=
  if_pos h

theorem Reading.kept_eq (h : Reading fd s received []) : s.kept fd = [] := by
  rw [kept]
  cases hq : s.queue fd with
  | nil => rfl
  | cons n l =>
    have hn := (h.unread n (by rw [hq]; exact List.mem_cons_self)).1
    simp only [hn]
    rfl

theorem clear_eq {m : Mem} (h : node.nSize = 0) : node.clear m = m := by
  rw [MemNode.clear]
  cases node.pData with
  | none => rfl
  | some p => simp [h]

theorem Unread.reset (h : Unread node) : Unread node.reset := by
  rw [MemNode.reset]
  split_ifs
  · exact ⟨rfl, h.2.1, h.2.2⟩
  · exact h

theorem piece_reset (n : MemNode) : n.reset.piece = n.piece := by
  rw [MemNode.reset]
  split_ifs <;> rfl

/-- The front of the queue is taken. -/
theorem pop_queue {n : Option MemNode} (h : DispatchData.getAndPopFront s.m_ReadQue fd = .ok (q, n)) :
    s.queue fd = n.toList ++ queue { s with m_ReadQue := q } fd ∧ (n = none → q = s.m_ReadQue) ∧
      (n.isSome → ∃ l, q.find? fd = some l) := by
  rw [DispatchData.getAndPopFront] at h
  cases hf : s.m_ReadQue.find? fd with
  | none =>
    rw [hf] at h
    cases h
    exact ⟨rfl, fun _ => rfl, by simp⟩
  | some l =>
    rw [hf] at h
    cases l with
    | nil => cases h
    | cons node l =>
      cases h
      refine ⟨?_, by simp, fun _ => ⟨l, StdMap.find?_set_self hf⟩⟩
      simp only [queue, hf, StdMap.find?_set_self hf]
      rfl

theorem Reading.pop (h : Reading fd s received []) (hp : DispatchData.getAndPopFront s.m_ReadQue fd = .ok (q, some node)) :
    Reading fd { s with m_ReadQue := q } received [node] := by
  have hq := (pop_queue hp).1
  refine ⟨h.running, h.handed, fun n hn => h.unread n (by rwa [List.nil_append, hq]), ?_⟩
  have hpairs := h.apart
  rw [List.nil_append, hq] at hpairs
  exact hpairs

/-- The request in hand is put back. -/
theorem Reading.pushRead (h : Reading fd s received [node]) (hl : ∃ l, s.m_ReadQue.find? fd = some l) :
    Reading fd (s.pushRead fd node) received [] := by
  obtain ⟨l, hl⟩ := hl
  have hq : queue (s.pushRead fd node) fd = [node] ++ s.queue fd := by
    simp only [AsyncServer.pushRead, DispatchData.pushBack, queue, hl, StdMap.find?_set_self hl]
    rfl
  refine ⟨h.running, h.handed, ?_, ?_⟩
  · rw [hq]
    exact h.unread
  · rw [hq]
    exact h.apart

theorem published_append (s : AsyncServer) (fd : Nat) (m : Mem) (r : SPostReq) :
    published { s with mem := m, m_data := s.m_data ++ [r] } fd =
      s.published fd ++ if r.valid && r.cSock == (fd : Int) then [r] else [] := by
  simp only [published, List.filter_append, List.filter_cons, List.filter_nil]

theorem valid_toReq (n : MemNode) :
    ((toReq n fd s.m_serSocket).valid && (toReq n fd s.m_serSocket).cSock == (fd : Int)) = true := by
  simp [toReq, SPostReq.valid]

theorem valid_notice (t : OpType) : ((s.notice fd "" t).valid && (s.notice fd "" t).cSock == (fd : Int)) = true := by
  simp [notice, SPostReq.valid]

/-- Bytes outside a piece that is written stay. -/
theorem read_write_apart {m : Mem} {a : Piece} {p : Int} (h : Apart a (p, bs.length)) :
    read (write m p bs) a.1 a.2 = read m a.1 a.2 := by
  rcases h with ha | hb | hab
  · rw [ha]
    rfl
  · have hbs : bs = [] := List.length_eq_zero_iff.1 hb
    rw [hbs, write_nil]
  · exact read_write_other hab

/-- All of the request in hand is filled and published. -/
theorem Reading.publish (h : Reading fd s received [node]) (hv : node.valid = true) (hlen : bs.length = node.nCount) :
    Reading fd { s with
      mem := write s.mem (node.pData.getD 0) bs
      m_data := s.m_data ++ [toReq { node with nTrans := node.nCount } fd s.m_serSocket] } (received ++ bs) [] := by
  obtain ⟨p, hp⟩ : ∃ p, node.pData = some p := by
    rw [MemNode.valid, Bool.and_eq_true] at hv
    exact Option.isSome_iff_exists.1 hv.1
  have hpiece : node.piece = (p, node.nCount) := by simp [MemNode.piece, hp]
  have hreq : (toReq { node with nTrans := node.nCount } fd s.m_serSocket).piece = (p, node.nCount) := by
    simp [SPostReq.piece, toReq, hp]
  have hpub := published_append s fd (write s.mem (node.pData.getD 0) bs)
    (toReq { node with nTrans := node.nCount } fd s.m_serSocket)
  rw [if_pos (valid_toReq _)] at hpub
  have hold : ∀ x ∈ s.published fd, Apart x.piece (p, bs.length) := by
    intro x hx
    have := (List.pairwise_append.1 h.apart).2.2 x.piece (List.mem_map_of_mem hx) node.piece (by simp)
    rwa [hpiece, ← hlen] at this
  refine ⟨h.running, ?_, fun n hn => h.unread n (List.mem_append_right _ hn), ?_⟩
  · rw [AsyncServer.handed, hpub, List.flatMap_append, ← h.handed, AsyncServer.handed]
    congr 1
    · refine List.flatMap_congr fun x hx => ?_
      simp only [SPostReq.bytes, hp, Option.getD_some]
      exact read_write_apart (hold x hx)
    · simp only [List.flatMap_cons, List.flatMap_nil, List.append_nil, SPostReq.bytes, hp, Option.getD_some, ← hlen]
      exact read_write_self _ _ _
  · rw [hpub, List.map_append, List.map_cons, List.map_nil, hreq, ← hpiece, List.append_assoc]
    exact h.apart

/-- The peer has closed. -/
theorem Reading.fdDel {hand : List MemNode} (h : Reading fd s received hand) : Reading fd (s.fdDel fd) received [] := by
  have hq : queue (s.fdDel fd) fd = [] := by
    simp only [AsyncServer.fdDel, produceNode, h.running, if_true, queue, DispatchData.deleteOut, StdMap.find?_erase_self]
    rfl
  have hpub : published (s.fdDel fd) fd = s.published fd ++ [s.notice fd "" .OP_EXIT] := by
    have := published_append s fd s.mem (s.notice fd "" .OP_EXIT)
    rw [if_pos (valid_notice _)] at this
    simp only [AsyncServer.fdDel, produceNode, h.running, if_true, published] at this ⊢
    exact this
  have hmem : (s.fdDel fd).mem = s.mem := by
    simp only [AsyncServer.fdDel, produceNode, h.running, if_true]
  refine ⟨?_, ?_, ?_, ?_⟩
  · simp only [AsyncServer.fdDel, produceNode, h.running, if_true]
  · rw [AsyncServer.handed, hpub, hmem, List.flatMap_append, ← h.handed, AsyncServer.handed]
    exact List.append_nil _
  · rw [hq]
    simp
  · rw [hq, hpub, List.map_append, List.map_cons, List.map_nil, List.nil_append, List.map_nil, List.append_nil]
    refine List.pairwise_append.2 ⟨(List.pairwise_append.1 h.apart).1, List.pairwise_singleton _ _, fun a _ b hb => ?_⟩
    rw [List.mem_singleton.1 hb]
    exact .inr (.inl rfl)

/-! ## One task -/

/-- Every `recv` that returns bytes fills its request, and another one waits then. -/
def Whole : List MemNode → List RecvResult → Prop
  | node :: nodes, .data bs :: results =>
    bs.length = node.nCount ∧ nodes ≠ [] ∧ ((∃ n ∈ nodes.head?, n.valid = true) → Whole nodes results)
  | _, _ => True

instance decWhole : ∀ nodes results, Decidable (Whole nodes results)
  | _ :: nodes, .data _ :: results =>
    have := decWhole nodes results
    inferInstanceAs (Decidable (_ ∧ _))
  | _ :: _, .wouldBlock :: _ => isTrue trivial
  | _ :: _, .closed :: _ => isTrue trivial
  | _ :: _, [] => isTrue trivial
  | [], _ => isTrue trivial

theorem valid_reset : node.reset.valid = node.valid := by
  rw [MemNode.reset]
  split_ifs <;> rfl

theorem whole_reset {nodes : List MemNode} : Whole (node.reset :: nodes) results ↔ Whole (node :: nodes) results := by
  have hcount : node.reset.nCount = node.nCount := by
    rw [MemNode.reset]
    split_ifs <;> rfl
  cases results with
  | nil => exact Iff.rfl
  | cons x results =>
    cases x with
    | data bs => rw [Whole, Whole, hcount]
    | wouldBlock => exact Iff.rfl
    | closed => exact Iff.rfl

/-- Exits are published for the peer's sake only. -/
def ExitsClosed (s t : AsyncServer) (results : List RecvResult) : Prop :=
  ∀ c ∈ t.m_data, c.oType = .OP_EXIT → c ∈ s.m_data ∨ .closed ∈ results

theorem exitsClosed_fdDel (hc : .closed ∈ results) : ExitsClosed s (s.fdDel fd) results := fun _ _ _ => .inr hc

/-- A task that has ended keeps `Reading` and publishes exits for the peer's sake only. -/
structure TaskKeeps (fd : Nat) (s : AsyncServer) (received : List UInt8) (results : List RecvResult) (r : TaskRun) : Prop where
  reading : Reading fd r.server (received ++ r.received) []
  exits : ExitsClosed s r.server results

/-- The front of a queue that is not empty. -/
theorem pop_some (hl : ∃ l, s.m_ReadQue.find? fd = some l) (hne : s.queue fd ≠ []) :
    ∃ q next, DispatchData.getAndPopFront s.m_ReadQue fd = .ok (q, some next) := by
  obtain ⟨l, hl⟩ := hl
  rw [queue, hl] at hne
  rw [DispatchData.getAndPopFront, hl]
  cases l with
  | nil => exact absurd rfl hne
  | cons next l => exact ⟨_, next, rfl⟩

/-- A request without a buffer is dropped. -/
theorem Reading.drop (h : Reading fd s received [node]) : Reading fd s received [] :=
  ⟨h.running, h.handed, fun n hn => h.unread n (List.mem_append_right _ hn),
    h.apart.sublist ((List.Sublist.refl _).append (List.Sublist.cons _ (List.Sublist.refl _)))⟩

theorem readLoop_spec (h : Reading fd s received [node]) (hv : node.valid = true) (hw : Whole (node :: s.queue fd) results)
    (hl : ∃ l, s.m_ReadQue.find? fd = some l) : readLoop fd results s node 0 = .error .waiting ∨
      ∃ r, readLoop fd results s node 0 = .ok r ∧ TaskKeeps fd s received results r := by
  have hpos : node.nCount - 0 ≠ 0 := by
    rw [MemNode.valid, Bool.and_eq_true, bne_iff_ne] at hv
    exact hv.2
  induction results generalizing s received node with
  | nil =>
    rw [readLoop, if_neg hpos]
    exact .inl rfl
  | cons x results ih =>
    rw [readLoop.eq_def]
    dsimp only
    rw [if_neg hpos]
    cases x with
    | wouldBlock =>
      have hfailed : s.readFailed fd node 0 = s.pushRead fd node := if_neg (by decide)
      refine .inr ⟨_, rfl, ?_, fun c hc _ => .inl ?_⟩
      · dsimp only
        rw [hfailed, List.append_nil]
        exact h.pushRead hl
      · rwa [hfailed] at hc
    | closed =>
      refine .inr ⟨_, rfl, ?_, exitsClosed_fdDel List.mem_cons_self⟩
      dsimp only
      rw [List.append_nil]
      exact h.fdDel
    | data bs =>
      obtain ⟨hlen, hnodes, hrest⟩ := hw
      have hun := h.unread node List.mem_cons_self
      have hpub := h.publish hv hlen
      have hproduce := produceNode_running (s := { s with mem := write s.mem (node.pData.getD 0) bs }) h.running
        (toReq { node with nTrans := node.nCount } fd s.m_serSocket)
      obtain ⟨q, next, hpop⟩ := pop_some hl hnodes
      have hqueue := (pop_queue hpop).1
      have hfind := (pop_queue hpop).2.2 rfl
      have hnext := hpub.pop hpop
      have hexit : ∀ c ∈ s.m_data ++ [toReq { node with nTrans := node.nCount } fd s.m_serSocket], c.oType = .OP_EXIT →
          c ∈ s.m_data := by
        intro c hc hexit
        rcases List.mem_append.1 hc with hc | hc
        · exact hc
        · rw [List.mem_singleton.1 hc] at hexit
          exact absurd (hun.2.2.symm.trans hexit) (by decide)
      simp only [hlen, if_true, Nat.cast_zero, add_zero, hproduce, clear_eq hun.2.1, hpop, bind, Except.bind]
      by_cases hvn : next.valid = true
      · rw [if_pos hvn]
        have hwhole := hrest ⟨next, by rw [hqueue]; rfl, hvn⟩
        rw [hqueue] at hwhole
        have hposn : next.nCount - 0 ≠ 0 := by
          rw [MemNode.valid, Bool.and_eq_true, bne_iff_ne] at hvn
          exact hvn.2
        rcases ih hnext hvn hwhole hfind hposn with hwait | ⟨r, hr, hkeeps⟩
        · rw [hwait]
          exact .inl rfl
        · rw [hr]
          refine .inr ⟨_, rfl, ?_, fun c hc he => ?_⟩
          · dsimp only
            rw [← List.append_assoc]
            exact hkeeps.reading
          · rcases hkeeps.exits c hc he with hc | hclosed
            · exact .inl (hexit c hc he)
            · exact .inr (List.mem_cons_of_mem _ hclosed)
      · rw [if_neg hvn]
        exact .inr ⟨_, rfl, hnext.drop, fun c hc he => .inl (hexit c hc he)⟩

/-- When a task meets no defect: a request waits, and every `recv` that returns bytes fills one. -/
def TaskOk (s : AsyncServer) (fd : Nat) (results : List RecvResult) : Prop :=
  (∀ l ∈ s.m_ReadQue.find? fd, l ≠ []) ∧ ((∃ n ∈ (s.queue fd).head?, n.valid = true) → Whole (s.queue fd) results)

instance (s : AsyncServer) (fd : Nat) (results : List RecvResult) : Decidable (TaskOk s fd results) :=
  inferInstanceAs (Decidable (_ ∧ _))

theorem readTask_spec (h : Reading fd s received []) (hok : TaskOk s fd results) : readTask s fd results = .error .waiting ∨
    ∃ r, readTask s fd results = .ok r ∧ TaskKeeps fd s received results r := by
  cases hf : s.m_ReadQue.find? fd with
  | none =>
    refine .inr ⟨⟨s, [], [], []⟩, ?_, ?_, fun c hc _ => .inl hc⟩
    · simp only [readTask, DispatchData.getAndPopFront, hf, bind, Except.bind]
    · dsimp only
      rw [List.append_nil]
      exact h
  | some l =>
    have hne : s.queue fd ≠ [] := by
      rw [queue, hf]
      exact hok.1 l hf
    obtain ⟨q, node, hpop⟩ := pop_some ⟨l, hf⟩ hne
    have hqueue := (pop_queue hpop).1
    have hfind := (pop_queue hpop).2.2 rfl
    have hnode := h.pop hpop
    have hun := hnode.unread node List.mem_cons_self
    simp only [readTask, hpop, bind, Except.bind, clear_eq hun.2.1]
    by_cases hv : node.valid = true
    · rw [if_pos hv]
      have hwhole := hok.2 ⟨node, by rw [hqueue]; rfl, hv⟩
      rw [hqueue] at hwhole
      have hreset : Reading fd { s with m_ReadQue := q } received [node.reset] := by
        refine ⟨hnode.running, hnode.handed, fun n hn => ?_, ?_⟩
        · rcases List.mem_cons.1 hn with rfl | hn
          · exact hun.reset
          · exact hnode.unread n (List.mem_cons_of_mem _ hn)
        · rw [List.map_append, List.map_cons, List.map_nil, piece_reset]
          exact hnode.apart
      rcases readLoop_spec hreset (valid_reset.trans hv) (whole_reset.2 hwhole) hfind with hwait | ⟨r, hr, hkeeps⟩
      · rw [hwait]
        exact .inl rfl
      · rw [hr]
        exact .inr ⟨_, rfl, hkeeps.reading, hkeeps.exits⟩
    · rw [if_neg hv]
      refine .inr ⟨_, rfl, ?_, fun c hc _ => .inl hc⟩
      dsimp only
      rw [List.append_nil]
      exact hnode.drop

/-! ## Runs -/

/-- The server, and all that `recv` has returned for the socket. -/
structure Reader where
  server : AsyncServer
  received : List UInt8

/-- A read task. -/
def readStep (fd : Nat) (t : Reader) (results : List RecvResult) : Except IoFault Reader := do
  let r ← t.server.readTask fd results
  .ok ⟨r.server, t.received ++ r.received⟩

/-- Read requests are posted for a socket, in buffers that do not overlap, and nothing is
published for it yet. -/
structure Posted (fd : Nat) (s : AsyncServer) : Prop where
  running : s.m_bRun = true
  unpublished : ∀ c ∈ s.m_data, c.cSock ≠ fd
  unread : ∀ n ∈ s.queue fd, Unread n
  apart : ((s.queue fd).map MemNode.piece).Pairwise Apart

theorem Posted.reading (h : Posted fd s) : Reading fd s [] [] := by
  have hpub : s.published fd = [] := by
    refine List.filter_eq_nil_iff.2 fun c hc => ?_
    have := h.unpublished c hc
    simp [this]
  refine ⟨h.running, ?_, h.unread, ?_⟩
  · rw [handed, hpub]
    rfl
  · rw [hpub]
    exact h.apart

/-- What a run must show: no byte is lost, and no exit is published that the peer did not cause. -/
structure Lossless (fd : Nat) (s : AsyncServer) (tasks : List (List RecvResult)) (t : Reader) : Prop where
  bytes : t.server.handed fd ++ t.server.kept fd = t.received
  exits : ∀ c ∈ t.server.m_data, c.oType = .OP_EXIT → c ∈ s.m_data ∨ ∃ results ∈ tasks, .closed ∈ results

/-- In every run in which each `recv` that returns bytes fills its request and another request waits
then, no byte is lost. A run may end in a task that still waits. -/
theorem lossless_run {tasks : List (List RecvResult)} (hs : Posted fd s)
    (hok : Along (readStep fd) (fun t results => TaskOk t.server fd results) ⟨s, []⟩ tasks) :
    tasks.foldlM (readStep fd) ⟨s, []⟩ = .error .waiting ∨
      ∃ t, tasks.foldlM (readStep fd) ⟨s, []⟩ = .ok t ∧ Lossless fd s tasks t := by
  suffices h : ∀ t : Reader, Reading fd t.server t.received [] →
      Along (readStep fd) (fun t results => TaskOk t.server fd results) t tasks →
      tasks.foldlM (readStep fd) t = .error .waiting ∨ ∃ t', tasks.foldlM (readStep fd) t = .ok t' ∧
        Reading fd t'.server t'.received [] ∧
        ∀ c ∈ t'.server.m_data, c.oType = .OP_EXIT → c ∈ t.server.m_data ∨ ∃ results ∈ tasks, .closed ∈ results by
    rcases h ⟨s, []⟩ hs.reading hok with hwait | ⟨t, ht, hread, hexits⟩
    · exact .inl hwait
    · exact .inr ⟨t, ht, by rw [hread.kept_eq, List.append_nil, hread.handed], hexits⟩
  clear hok hs
  induction tasks with
  | nil => exact fun t ht _ => .inr ⟨t, rfl, ht, fun c hc _ => .inl hc⟩
  | cons results tasks ih =>
    intro t ht ⟨hok, hrest⟩
    rw [List.foldlM_cons]
    rcases readTask_spec ht hok with hwait | ⟨r, hr, hkeeps⟩
    · simp only [readStep, hwait, bind, Except.bind]
      exact .inl trivial
    · have hstep : readStep fd t results = .ok ⟨r.server, t.received ++ r.received⟩ := by
        rw [readStep, hr]
        rfl
      rw [hstep] at hrest ⊢
      rcases ih _ hkeeps.reading hrest with hwait | ⟨t', ht', hread, hexits⟩
      · exact .inl hwait
      · refine .inr ⟨t', ht', hread, fun c hc he => ?_⟩
        rcases hexits c hc he with hc | ⟨rs, hrs, hclosed⟩
        · rcases hkeeps.exits c hc he with hc | hclosed
          · exact .inl hc
          · exact .inr ⟨results, List.mem_cons_self, hclosed⟩
        · exact .inr ⟨rs, List.mem_cons_of_mem _ hrs, hclosed⟩

/-- Three requests of 3, 2 and 1 bytes for the socket 5. -/
def threeRequests : AsyncServer where
  mem := fun _ => 0
  m_bRun := true
  m_serSocket := 3
  m_data := []
  m_ReadQue := StdMap.empty.insert 5
    [⟨some 1000, 3, 0, 0, 0, none, .OP_READ⟩, ⟨some 2000, 2, 0, 0, 1, none, .OP_READ⟩, ⟨some 3000, 1, 0, 0, 2, none, .OP_READ⟩]
  m_WriteQue := StdMap.empty
  closed := []

theorem posted_threeRequests : Posted 5 threeRequests :=
  ⟨rfl, fun c hc => absurd hc List.not_mem_nil, by decide, by decide⟩

/-- Each task that gets bytes fills its request; the last one finds the peer gone. -/
def threeTasks : List (List RecvResult) := [[.data [1, 2, 3], .wouldBlock], [.wouldBlock], [.data [4, 5], .closed]]

theorem lossless_run_three : ∃ t, threeTasks.foldlM (readStep 5) ⟨threeRequests, []⟩ = .ok t ∧
    Lossless 5 threeRequests threeTasks t := by
  have hended : ∃ t, threeTasks.foldlM (readStep 5) ⟨threeRequests, []⟩ = .ok t ∧ True := by decide +kernel
  obtain ⟨t, ht, -⟩ := hended
  have hok : Along (readStep 5) (fun t results => TaskOk t.server 5 results) ⟨threeRequests, []⟩ threeTasks := by decide +kernel
  rcases lossless_run posted_threeRequests hok with hwait | hrun
  · rw [ht] at hwait
    cases hwait
  · exact hrun

/-- Two bytes and one more fill the first request: nothing is published but an exit. -/
theorem lost_in_pieces : Posted 5 threeRequests ∧ ∃ t, [[RecvResult.data [1, 2], .data [3], .wouldBlock]].foldlM (readStep 5)
    ⟨threeRequests, []⟩ = .ok t ∧ ¬Lossless 5 threeRequests [[.data [1, 2], .data [3], .wouldBlock]] t := by
  have hended : ∃ t, [[RecvResult.data [1, 2], .data [3], .wouldBlock]].foldlM (readStep 5) ⟨threeRequests, []⟩ = .ok t ∧
      t.received = [1, 2, 3] ∧ t.server.handed 5 = [] ∧ t.server.kept 5 = [] := by decide +kernel
  obtain ⟨t, ht, hreceived, hhanded, hkept⟩ := hended
  refine ⟨posted_threeRequests, t, ht, fun h => ?_⟩
  have := h.bytes
  rw [hreceived, hhanded, hkept] at this
  cases this

end AsyncServer

end AsyncNet
