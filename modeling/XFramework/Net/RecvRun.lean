/-
A session that is fed a stream of frames (Net/SocketSession.cpp).

The network completes the posted request with the next bytes of the stream,
and `ParseData` works them off. In every run whose completions are ones the
receiver provides for, one request is out after each `ParseData`
(`posted_run`), and it is never posted over frames that wait or bytes that
were left over (`spared_run`).
-/
import XFramework.Net.RecvStep

open Bytes Fallible

/-- The frames from a byte of the stream on. -/
def framesFrom : Nat → List Framed → List Framed
  | _, [] => []
  | n, f :: fs => if n = 0 then f :: fs else framesFrom (n - f.length) fs

theorem framesFrom_append (taken todo : List Framed) : framesFrom (streamBytes taken).length (taken ++ todo) = todo := by
  induction taken with
  | nil => cases todo <;> rfl
  | cons f taken ih =>
    have hge := f.le_length
    rw [List.cons_append, framesFrom, streamBytes_cons, List.length_append, Framed.length_bytes, if_neg (by omega),
      Nat.add_sub_cancel_left]
    exact ih

namespace RecvSession

variable (h : RecvHandle) (now : Int)

/-- The session behind each place of a pass where a request can be posted: `RecvData`, the request behind an
incomplete package, and the one behind a complete package. -/
def moments (s : RecvSession) (io : TmpPerIO) : Except RecvError (List RecvSession) :=
  if io.nIndex < s.m_RecvBuf.length then do
    let (s₁, _, _) ← s.recvData io.nIndex io
    let (s₂, stamp, bFlag) ← s.takeData io.nIndex io
    match stamp with
    | none => .ok [s₁]
    | some stamp => do
      let (s₃, bFinshPackage) ← goOn h s₂ io.nIndex stamp bFlag
      let s₄ ← deliver h now s₃ bFinshPackage
      .ok [s₁, s₃, s₄]
  else .ok []

/-- These sessions of all passes of `ParseData`. -/
def parseMoments (s : RecvSession) : List TmpPerIO → Except RecvError (List RecvSession)
  | [] => .ok []
  | io :: ios => do
    let ms ← moments h now s io
    let s ← parseOne h now s io
    let more ← parseMoments s ios
    .ok (ms ++ more)

end RecvSession

/-! ## Streams of frames -/

/-- The head the sender gives a message. -/
def Message.sentHead (g : Message) : MsgHead where
  tFrames := .ofNat g.total
  nFrames := .ofNat g.index
  nVerifyLen := 0
  nProtoType := g.pkg.m_nBaseProtol
  nReserved := 0
  nRetState := 0
  nDataLen := .ofNat g.chunk.length
  tSrcLen := .ofNat g.pkg.m_len
  tDataLen := .ofNat g.pkg.m_len
  nFrameLen := .ofNat (24 + g.chunk.length)
  nUserProto := g.pkg.m_nUserProtol
  ntimestamp := g.pkg.m_timestamp

theorem describes_sentHead {len : Nat} {stamp : Int64} {b : UInt8} {g : Message} (hlen : len < 65536)
    (hg : g ∈ (Reassembling.bytesOf len stamp b).messages) : Message.Describes g.sentHead g := by
  have hpkg := NetPackage.pkg_of_mem hg
  have hchunk := NetPackage.length_chunk hg
  obtain ⟨htotal, hindex⟩ := NetPackage.total_of_mem hg
  have hcount : (Reassembling.bytesOf len stamp b).chunkCount ≤ 66 := by
    simp only [NetPackage.chunkCount, Reassembling.bytesOf]
    omega
  have hm : g.pkg.m_len = len := by
    rw [hpkg]
    rfl
  refine ⟨?_, ?_, ?_, ?_, ?_, ?_, rfl, rfl, ?_, rfl⟩
  · exact UInt8.toNat_ofNat_of_lt' (by show g.total < 256; omega)
  · exact UInt8.toNat_ofNat_of_lt' (by show g.index < 256; omega)
  · exact UInt16.toNat_ofNat_of_lt' (by show g.chunk.length < 65536; omega)
  · exact UInt16.toNat_ofNat_of_lt' (by show 24 + g.chunk.length < 65536; omega)
  · exact UInt16.toNat_ofNat_of_lt' (by show g.pkg.m_len < 65536; omega)
  · exact UInt16.toNat_ofNat_of_lt' (by show g.pkg.m_len < 65536; omega)
  · rw [hpkg]
    rfl

/-- The frames of a package of `len` equal bytes. -/
def framesOf (len : Nat) (stamp : Int64) (b : UInt8) (hlen : len < 65536) : List Framed :=
  (Reassembling.bytesOf len stamp b).messages.attach.map fun g =>
    have hpkg := NetPackage.pkg_of_mem g.2
    ⟨g.1.sentHead, g.1, describes_sentHead hlen g.2, hpkg.symm ▸ g.2, hpkg.symm ▸ List.length_replicate⟩

theorem msgs_framesOf {len : Nat} {stamp : Int64} {b : UInt8} (hlen : len < 65536) :
    (framesOf len stamp b hlen).map Framed.msg = (Reassembling.bytesOf len stamp b).messages := by
  rw [framesOf, List.map_map]
  exact List.attach_map_subtype_val _

/-- A session at 4096 after its first `PostRecv`. -/
def opened : RecvSession :=
  match (RecvSession.init 0 (fun _ => 0) 4096).postRecv 0 none with
  | .ok s => s
  | .error _ => .init 0 (fun _ => 0) 4096

/-- A session, and how many bytes of the stream it has received. -/
structure Feeding where
  session : RecvSession
  received : Nat

/-- `n` bytes arrive, or `ParseData` is called. -/
inductive Feed
  | arrive (n : Nat)
  | parse (now : Int)

namespace Feeding

/-- The frames that are not taken yet: what is left over of the first of them was received. -/
def todo (frames : List Framed) (r : Feeding) : List Framed :=
  framesFrom (r.received - (r.session.leftOver + r.session.partIn)) frames

def step (h : RecvHandle) (frames : List Framed) (r : Feeding) : Feed → Except RecvError Feeding
  | .arrive n =>
    if (streamBytes frames).length < r.received + n then .error .waiting
    else do
      let s ← r.session.complete (((streamBytes frames).drop r.received).take n)
      .ok ⟨s, r.received + n⟩
  | .parse now => do
    let s ← r.session.parseData h now
    .ok ⟨s, r.received⟩

/-- The completions meet `ok`, which speaks of the session, the frames to come and the number of bytes. -/
def Meets (frames : List Framed) (ok : RecvSession → List Framed → Nat → Prop) (r : Feeding) : Feed → Prop
  | .arrive n => ok r.session (r.todo frames) n
  | .parse _ => True

/-- Between two completions. -/
structure Resting (exact : Prop) (base : Int) (frames : List Framed) (r : Feeding) (k q : Nat) (pExtend : Option Nat) (e : Nat)
    (todo : List Framed) (gs : List FrameGroup) (ps : List NetPackage) : Prop where
  ready : Ready exact base r.session k q pExtend e todo gs ps
  idle : r.session.m_perIoDatas = []
  taken : ∃ taken, frames = taken ++ todo ∧ r.received = (streamBytes taken).length + (e + q)

variable {exact : Prop} {base : Int} {h : RecvHandle} {frames todo : List Framed} {r r' : Feeding} {k q e n : Nat}
  {pExtend : Option Nat} {gs : List FrameGroup} {ps : List NetPackage} {ok : RecvSession → List Framed → Nat → Prop} {a : Feed}
  {now : Int} {m : Mem} {s : RecvSession}

theorem Resting.todo_eq (hr : Resting exact base frames r k q pExtend e todo gs ps) : r.todo frames = todo := by
  obtain ⟨taken, hframes, hreceived⟩ := hr.taken
  rw [Feeding.todo, hr.ready.leftOver, hr.ready.partIn, hreceived, Nat.add_sub_cancel, hframes, framesFrom_append]

/-- The bytes that arrive next. -/
theorem Resting.drop (hr : Resting exact base frames r k q pExtend e todo gs ps) :
    (streamBytes frames).drop r.received = (streamBytes todo).drop (e + q) ∧
      ((streamBytes frames).length < r.received + n ↔ (streamBytes todo).length < e + q + n) := by
  obtain ⟨taken, rfl, hreceived⟩ := hr.taken
  rw [hreceived, streamBytes_append, ← List.drop_drop, List.drop_left, List.length_append]
  exact ⟨rfl, by omega⟩

/-- A completion that has arrived and is not worked off yet. -/
structure Arriving (exact : Prop) (base : Int) (frames : List Framed) (ok : RecvSession → List Framed → Nat → Prop) (r r₀ : Feeding)
    (n k q : Nat) (pExtend : Option Nat) (e : Nat) (todo : List Framed) (gs : List FrameGroup) (ps : List NetPackage) : Prop where
  resting : Resting exact base frames r₀ k q pExtend e todo gs ps
  session : r.session = r₀.session.completed k q pExtend base (((streamBytes todo).drop (e + q)).take n)
  received : r.received = r₀.received + n
  pos : 0 < n
  len : ∀ req ∈ r₀.session.posted, n ≤ req.len
  enough : e + q + n ≤ (streamBytes todo).length
  ok : ok r₀.session todo n

/-- The states of a run. -/
def Fed (exact : Prop) (base : Int) (frames : List Framed) (ok : RecvSession → List Framed → Nat → Prop) (r : Feeding) : Prop :=
  (∃ k q pExtend e todo gs ps, Resting exact base frames r k q pExtend e todo gs ps) ∨
    ∃ r₀ n k q pExtend e todo gs ps, Arriving exact base frames ok r r₀ n k q pExtend e todo gs ps

theorem Resting.arrive (hr : Resting exact base frames r k q pExtend e todo gs ps) (hbase : 0 < base)
    (hok : ok r.session (r.todo frames) n) (hstep : r.step h frames (.arrive n) = .ok r') :
    Arriving exact base frames ok r' r n k q pExtend e todo gs ps := by
  obtain ⟨hdrop, hlt⟩ := hr.drop (n := n)
  rw [step] at hstep
  split_ifs at hstep with henough
  have henough' : e + q + n ≤ (streamBytes todo).length := Nat.not_lt.1 fun h => henough (hlt.2 h)
  rw [hdrop] at hstep
  have hlen : (((streamBytes todo).drop (e + q)).take n).length = n := by
    rw [List.length_take_of_le]
    rw [List.length_drop]
    omega
  obtain ⟨s, hs, hstep⟩ := bind_eq_ok.1 hstep
  cases hstep
  obtain ⟨len, hposted, -⟩ := hr.ready.listening.posted
  have hcan := hs
  rw [RecvSession.complete, hposted] at hcan
  dsimp only at hcan
  split_ifs at hcan with hno
  obtain ⟨hne, hle⟩ := not_or.1 hno
  have hasks : ∀ req ∈ r.session.posted, (((streamBytes todo).drop (e + q)).take n).length ≤ req.len := fun req hin => by
    rw [hposted] at hin
    rw [List.mem_singleton.1 hin]
    exact Nat.not_lt.1 hle
  have hdone := hr.ready.complete _ hbase hr.idle hne hasks
  rw [hs] at hdone
  refine ⟨hr, Except.ok.inj hdone, rfl, ?_, fun req hin => hlen ▸ hasks req hin, henough', hr.todo_eq ▸ hok⟩
  rw [← hlen]
  exact List.length_pos_iff.2 hne

/-- `ParseData` over the completion. -/
theorem Arriving.parse {r₀ : Feeding} {t : Taken} {s₃ s' : RecvSession}
    (ha : Arriving exact base frames ok r r₀ n k q pExtend e todo gs ps)
    (htaken : r.session.taken k ⟨k, n, base + 4096 * (k : Int) + q, pExtend⟩ = .ok t) (hgoes : Goes h now r.session k t s₃ s') :
    r.session.parseData h now = .ok { s' with m_perIoDatas := [] } := by
  have hbufs := ha.resting.ready.listening.arrived
  have hlen : (((streamBytes todo).drop (e + q)).take n).length = n := by
    have := ha.enough
    rw [List.length_take_of_le]
    rw [List.length_drop]
    omega
  have hin : k < r.session.m_RecvBuf.length := by
    rw [ha.session]
    exact hbufs.buffers.length.symm ▸ hbufs.lt
  have hio : r.session.m_perIoDatas = [⟨k, n, base + 4096 * (k : Int) + q, pExtend⟩] := by
    rw [ha.session, RecvSession.completed, hlen]
  have hone : r.session.parseOne h now ⟨k, n, base + 4096 * (k : Int) + q, pExtend⟩ = .ok s' := by
    rw [RecvSession.parseOne_eq hin, htaken]
    exact hgoes.pass
  rw [RecvSession.parseData, hio]
  simp only [List.foldlM_cons, List.foldlM_nil, hone, bind, Except.bind, pure, Except.pure]

/-- A condition under which the receiver is ready again. -/
def Provides (exact : Prop) (base : Int) (h : RecvHandle) (ok : RecvSession → List Framed → Nat → Prop) : Prop :=
  ∀ s todo n, ok s todo n → s.Clean exact base h todo n ∧ s.KeysApart todo n ∧ (exact → s.Sorted base h todo n)

theorem Arriving.next {r₀ : Feeding} (now : Int) (ha : Arriving exact base frames ok r r₀ n k q pExtend e todo gs ps) (hbase : 0 < base)
    (hsorts : h.Sorts) (hok : Provides exact base h ok) :
    ∃ t s₃ s', r.session.taken k ⟨k, n, base + 4096 * (k : Int) + q, pExtend⟩ = .ok t ∧ Goes h now r.session k t s₃ s' ∧
      Next exact base h r₀.session s₃ s' k q e n todo gs ps ∧ ∀ req ∈ t.posted, req.nIndex = k ∧ req.pExtend = pExtend := by
  obtain ⟨hclean, hkeys, hsorted⟩ := hok _ _ _ ha.ok
  have hlen : (((streamBytes todo).drop (e + q)).take n).length = n := by
    have := ha.enough
    rw [List.length_take_of_le]
    rw [List.length_drop]
    omega
  have hpass := ha.resting.ready.pass now hbase hclean hkeys hsorts hsorted ha.pos ha.len rfl ha.enough
  rw [hlen, ← ha.session] at hpass
  exact hpass

/-- After `ParseData` the session is between two completions again, and what is complete was handed out. -/
theorem Arriving.rests {r₀ : Feeding} {s₃ s' : RecvSession} (ha : Arriving exact base frames ok r r₀ n k q pExtend e todo gs ps)
    (hn : Next exact base h r₀.session s₃ s' k q e n todo gs ps) :
    ∃ k' q' pExtend' e' todo' gs' ps',
      Resting exact base frames ⟨{ s' with m_perIoDatas := [] }, r.received⟩ k' q' pExtend' e' todo' gs' ps' ∧
      ∃ done, gs.map FrameGroup.pkg ++ ps = done ++ (gs'.map FrameGroup.pkg ++ ps') ∧ (exact → h.Works →
        r₀.session.InOrder base todo n → s'.m_recvQueue = r₀.session.m_recvQueue ++ done.filterMap NetPackage.delivered) := by
  obtain ⟨k', q', pExtend', e', todo', gs', ps', hr, ⟨taken, htodo, hlen⟩, hdone⟩ := hn.ready
  obtain ⟨taken₀, hframes, hreceived⟩ := ha.resting.taken
  have hl := hr.listening
  refine ⟨k', q', pExtend', e', todo', gs', ps',
    ⟨⟨⟨hl.online, hl.place, hl.arrived, hl.posted, hl.left_le, hl.ring, hl.ne⟩, hr.waiting, hr.incomplete, hr.stream, hr.sized, hr.free⟩,
    rfl, taken₀ ++ taken, ?_, ?_⟩, hdone⟩
  · rw [hframes, htodo, List.append_assoc]
  · rw [ha.received, hreceived, streamBytes_append, List.length_append]
    omega

theorem Fed.parse (hf : Fed exact base frames ok r) (hbase : 0 < base) (hsorts : h.Sorts) (hok : Provides exact base h ok)
    (hstep : r.step h frames (.parse now) = .ok r') :
    ∃ k q pExtend e todo gs ps, Resting exact base frames r' k q pExtend e todo gs ps := by
  obtain ⟨s', hs', hstep⟩ := bind_eq_ok.1 hstep
  cases hstep
  cases hf with
  | inl hf =>
    obtain ⟨k, q, pExtend, e, todo, gs, ps, hr⟩ := hf
    rw [RecvSession.parseData, hr.idle] at hs'
    have hsame : r.session = s' := by
      rw [← Except.ok.inj hs', ← hr.idle]
    rw [← hsame]
    exact ⟨k, q, pExtend, e, todo, gs, ps, hr⟩
  | inr hf =>
    obtain ⟨r₀, n, k, q, pExtend, e, todo, gs, ps, ha⟩ := hf
    obtain ⟨t, s₃, s₁, htaken, hgoes, hnext, -⟩ := ha.next now hbase hsorts hok
    rw [ha.parse htaken hgoes] at hs'
    cases hs'
    obtain ⟨k', q', pExtend', e', todo', gs', ps', hr, -⟩ := ha.rests hnext
    exact ⟨k', q', pExtend', e', todo', gs', ps', hr⟩

theorem Fed.step (hf : Fed exact base frames ok r) (hbase : 0 < base) (hsorts : h.Sorts) (hok : Provides exact base h ok)
    (hmeets : Meets frames ok r a) (hstep : r.step h frames a = .ok r') : Fed exact base frames ok r' := by
  cases a with
  | parse now => exact .inl (hf.parse hbase hsorts hok hstep)
  | arrive n =>
    cases hf with
    | inl hf =>
      obtain ⟨k, q, pExtend, e, todo, gs, ps, hr⟩ := hf
      exact .inr ⟨r, n, k, q, pExtend, e, todo, gs, ps, hr.arrive hbase hmeets hstep⟩
    | inr hf =>
      -- no request is out
      obtain ⟨r₀, n', k, q, pExtend, e, todo, gs, ps, ha⟩ := hf
      rw [Feeding.step] at hstep
      split_ifs at hstep
      obtain ⟨s, hs, -⟩ := bind_eq_ok.1 hstep
      rw [ha.session] at hs
      cases hs

/-- The session after its first `PostRecv`. -/
def Starts (base : Int) (s : RecvSession) : Prop :=
  ∃ now m, (RecvSession.init now m base).postRecv 0 none = .ok s

theorem starts_opened : Starts 4096 opened := ⟨0, fun _ => 0, rfl⟩

theorem Starts.resting {packages : List NetPackage} (hs : Starts base s) (hbase : 0 < base)
    (hframes : frames.map Framed.msg = packages.flatMap NetPackage.messages) :
    Resting exact base frames ⟨s, 0⟩ 0 0 none 0 frames [] packages ∧ s.m_recvQueue = [] := by
  obtain ⟨now, m, hs⟩ := hs
  have hplace : ∀ (i : Nat) (d : PackPerData), (RecvSession.initFrames base)[i]? = some d →
      d.At base i ∧ d.m_nExtendLen = 0 := fun i d hd => by
    rw [RecvSession.initFrames, List.getElem?_map, Option.map_eq_some_iff] at hd
    obtain ⟨j, hj, rfl⟩ := hd
    have hlt := (List.getElem?_eq_some_iff.1 hj).1
    rw [List.length_range] at hlt
    rw [List.getElem?_range hlt] at hj
    cases hj
    refine ⟨⟨rfl, rfl, rfl, ?_, rfl⟩, rfl⟩
    simp [PackPerData.new]
  have hb : Behind base m (RecvSession.initFrames base) 0 0 frames :=
    ⟨⟨rfl, fun i d hd => (hplace i d hd).1⟩, fun i d hd _ => (hplace i d hd).2, fun d hd => (hplace 0 d hd).2,
      fun hpos => absurd hpos (lt_irrefl 0)⟩
  obtain ⟨d, hd⟩ := hb.buffers.get (i := 0) (by omega)
  have hl := Behind.listening (s := .init now m base) hb hd hbase rfl rfl rfl (by omega) (fun h => absurd h (lt_irrefl 0))
    fun h => absurd h (lt_irrefl 0)
  have hd' : (RecvSession.init now m base).m_RecvBuf[(0 : Int).toNat]? = some d := hd
  have hzero : ¬((0 : Int) < 0 ∨ (0 : Int) ≥ ((RecvSession.init now m base).m_RecvBuf.length : Int)) := by
    have : (RecvSession.init now m base).m_RecvBuf.length = 4 := rfl
    omega
  rw [RecvSession.postRecv, if_pos (show (RecvSession.init now m base).m_bOnline = true from rfl), if_neg hzero] at hs
  simp only [RecvSession.buf, hd', bind, Except.bind] at hs
  cases hs
  refine ⟨⟨⟨hl, ⟨List.nodup_nil, fun x => ?_, List.forall_mem_nil _, List.forall_mem_nil _⟩, List.forall_mem_nil _, ?_, fun p hp => ?_,
    List.forall_mem_nil _⟩, rfl, [], rfl, rfl⟩, rfl⟩
  · simp [RecvSession.store, RecvSession.init]
  · rw [hframes]
    rfl
  · obtain ⟨msg, rest, hmsgs⟩ := List.exists_cons_of_ne_nil p.messages_ne_nil
    have hin : msg ∈ packages.flatMap NetPackage.messages :=
      List.mem_flatMap.2 ⟨p, hp, hmsgs ▸ List.mem_cons_self⟩
    rw [← hframes] at hin
    obtain ⟨f, -, rfl⟩ := List.mem_map.1 hin
    have hpkg := NetPackage.pkg_of_mem (p := p) (hmsgs ▸ List.mem_cons_self : f.msg ∈ p.messages)
    rw [← hpkg]
    exact f.sized

theorem fed_run {acts : List Feed} {packages : List NetPackage} (hbase : 0 < base) (hsorts : h.Sorts) (hok : Provides exact base h ok)
    (hs : Starts base s) (hframes : frames.map Framed.msg = packages.flatMap NetPackage.messages)
    (hk : Along (step h frames) (Meets frames ok) ⟨s, 0⟩ acts) (hrun : acts.foldlM (step h frames) ⟨s, 0⟩ = .ok r) :
    Fed exact base frames ok r :=
  hk.keeps (Fed exact base frames ok) hrun (.inl ⟨_, _, _, _, _, _, _, (hs.resting hbase hframes).1⟩)
    fun _ _ _ hf hmeets hstep => hf.step hbase hsorts hok hmeets hstep

/-! ## One request is out -/

/-- The completions after which the session listens again. -/
def Hears (base : Int) (h : RecvHandle) (s : RecvSession) (todo : List Framed) (n : Nat) : Prop :=
  s.Clean False base h todo n ∧ s.KeysApart todo n

theorem provides_hears : Provides False base h (Hears base h) := fun _ _ _ hok => ⟨hok.1, hok.2, nofun⟩

/-- In every run whose completions the receiver provides for, exactly one request is out after each `ParseData`. -/
theorem posted_run {acts : List Feed} {packages : List NetPackage} (hbase : 0 < base) (hsorts : h.Sorts) (hs : Starts base s)
    (hframes : frames.map Framed.msg = packages.flatMap NetPackage.messages)
    (hk : Along (step h frames) (Meets frames (Hears base h)) ⟨s, 0⟩ acts)
    (hrun : (acts ++ [Feed.parse now]).foldlM (step h frames) ⟨s, 0⟩ = .ok r) :
    r.session.m_perIoDatas = [] ∧ r.session.posted.length = 1 := by
  obtain ⟨r₁, hrun₁, hlast⟩ := foldlM_append_ok.1 hrun
  obtain ⟨r₂, hstep, hnil⟩ := foldlM_cons_ok.1 hlast
  cases foldlM_nil_ok.1 hnil
  have hfed := fed_run hbase hsorts provides_hears hs hframes hk hrun₁
  obtain ⟨k, q, pExtend, e, todo, gs, ps, hr⟩ := hfed.parse hbase hsorts provides_hears hstep
  obtain ⟨n, hposted, -⟩ := hr.ready.listening.posted
  exact ⟨hr.idle, by rw [hposted]; rfl⟩

instance [Decidable exact] (todo : List Framed) (n : Nat) : Decidable (s.Clean exact base h todo n) :=
  decidable_of_iff ((0 < s.leftOver → ∃ f ∈ todo.head?, s.leftOver < f.length ∧ f.length ≤ s.leftOver + n) ∧
      (24 < (s.arrival todo n).total ∨ 0 < s.leftOver ∧ (s.arrival todo n).total = 0) ∧
      ((s.arrival todo n).Partial → ∀ d ∈ s.m_RecvBuf[s.m_rPostIndex]?, d.m_isFinish = false) ∧
      (0 < s.leftOver → ∀ f ∈ todo.head?, ∀ fr ∈ s.waitingFrames, fr.m_index = (s.extendOf.getD 0 : Nat) →
        base + 4096 * ((s.extendOf.getD 0 : Nat) : Int) + f.length ≤ fr.m_buf ∨
          ¬exact ∧ fr.m_buf = base + 4096 * ((s.extendOf.getD 0 : Nat) : Int)) ∧
      (s.GoesOn base todo n → (s.arrival todo n).left > 0 →
        nextOf s.m_rPostIndex (h.sort (s.nextFrames base todo n)) ≠ s.m_rPostIndex) ∧
      (s.GoesOn base todo n → ∀ fr ∈ s.nextFrames base todo n,
        fr.m_index ≠ nextOf s.m_rPostIndex (h.sort (s.nextFrames base todo n))))
    ⟨fun ⟨hjoins, henough, hunset, hapart, hleft, hring⟩ => ⟨hjoins, henough, hunset, hapart, hleft, hring⟩,
      fun hc => ⟨hc.joins, hc.enough, hc.unset, hc.apart, hc.left, hc.ring⟩⟩

instance (todo : List Framed) (n : Nat) : Decidable (Hears base h s todo n) := inferInstanceAs (Decidable (_ ∧ _))

instance decMeets [∀ s todo n, Decidable (ok s todo n)] (r : Feeding) : ∀ a, Decidable (Meets frames ok r a)
  | .arrive n => inferInstanceAs (Decidable (ok r.session (r.todo frames) n))
  | .parse _ => isTrue trivial

/-- Two packages of one frame. -/
def twoFrames : List Framed := framesOf 5 1 7 (by decide) ++ framesOf 7 2 8 (by decide)

theorem msgs_twoFrames : twoFrames.map Framed.msg =
    [Reassembling.bytesOf 5 1 7, Reassembling.bytesOf 7 2 8].flatMap NetPackage.messages := by
  rw [twoFrames, List.map_append, msgs_framesOf, msgs_framesOf]
  rfl

/-- The second one comes in two pieces. -/
theorem posted_run_two : ∃ r, ([Feed.arrive 40, .parse 1, .arrive 20] ++ [Feed.parse 2]).foldlM (step .plain twoFrames) ⟨opened, 0⟩ = .ok r ∧
    r.received = 60 ∧ r.session.m_perIoDatas = [] ∧ r.session.posted.length = 1 := by
  have hended : ∃ r, ([Feed.arrive 40, .parse 1, .arrive 20] ++ [Feed.parse 2]).foldlM (step .plain twoFrames) ⟨opened, 0⟩ = .ok r ∧
      r.received = 60 := by decide +kernel
  obtain ⟨r, hr, hreceived⟩ := hended
  have hmet : Along (step .plain twoFrames) (Meets twoFrames (Hears 4096 .plain)) ⟨opened, 0⟩ [Feed.arrive 40, .parse 1, .arrive 20] := by
    decide +kernel
  exact ⟨r, hr, hreceived, posted_run (by decide) RecvHandle.sorts_plain starts_opened msgs_twoFrames hmet hr⟩

/-- A first read of ten bytes is followed by no request. -/
theorem not_posted_short : Starts 4096 opened ∧ ∃ r, [Feed.arrive 10, .parse 0].foldlM (step .plain twoFrames) ⟨opened, 0⟩ = .ok r ∧
    r.session.m_perIoDatas = [] ∧ r.session.posted = [] := by
  refine ⟨starts_opened, ?_⟩
  have hended : ∃ r, [Feed.arrive 10, .parse 0].foldlM (step .plain twoFrames) ⟨opened, 0⟩ = .ok r ∧
      (r.session.m_perIoDatas = [] ∧ r.session.posted = []) := by decide +kernel
  exact hended

/-! ## Where the request is posted -/

/-- The requests that `taken` records are those of `RecvData`. -/
theorem posted_recvData {p s₁ : RecvSession} {io : TmpPerIO} {ret : Int} {nFlag : Bool} {t : Taken} {cur : Nat}
    (hrecv : p.recvData cur io = .ok (s₁, ret, nFlag)) (ht : p.taken cur io = .ok t) : s₁.posted = t.posted := by
  obtain ⟨v, hv, ht⟩ := bind_eq_ok.1 ht
  rw [hrecv] at hv
  cases hv
  obtain ⟨pre, -, ht⟩ := bind_eq_ok.1 ht
  obtain ⟨⟨s₂, own⟩, hown, ht⟩ := bind_eq_ok.1 ht
  cases ht
  rw [RecvSession.ownFrames] at hown
  obtain ⟨d, -, hown⟩ := bind_eq_ok.1 hown
  split_ifs at hown
  · cases hown
    rw [RecvSession.store, Option.toList_none, List.append_nil]
  · cases hown
    rfl

theorem Ready.spared (hr : Ready exact base s k q pExtend e todo gs ps) : s.Spared := by
  refine hr.listening.spared (m := s.mem) fun fr hfr => ?_
  obtain ⟨g, hg, hin⟩ := hr.waiting.mem_waitingFrames.1 hfr
  exact hr.free g hg fr hin

/-- At every place of a pass the request is posted where nothing waits. -/
theorem Arriving.moments {r₀ : Feeding} {ms : List RecvSession} (ha : Arriving exact base frames ok r r₀ n k q pExtend e todo gs ps)
    (hbase : 0 < base) (hsorts : h.Sorts) (hok : Provides exact base h ok) (hfree : r₀.session.Free base h todo n)
    (hm : r.session.moments h now ⟨k, n, base + 4096 * (k : Int) + q, pExtend⟩ = .ok ms) : ∀ s ∈ ms, s.Spared := by
  obtain ⟨t, s₃, s', htaken, hgoes, hnext, hposted⟩ := ha.next now hbase hsorts hok
  have hready := ha.resting.ready
  have hmap : r.session.m_mapFrames = r₀.session.m_mapFrames := by
    rw [ha.session]
    rfl
  have hlast : s'.Spared := by
    obtain ⟨k', q', pExtend', e', todo', gs', ps', hr, -⟩ := hnext.ready
    exact Ready.spared hr
  rw [RecvSession.moments] at hm
  split_ifs at hm
  · obtain ⟨⟨s₁, ret, nFlag⟩, hrecv, hm⟩ := bind_eq_ok.1 hm
    have hfirst : s₁.Spared := by
      have hframe := RecvSession.recvData_frame hrecv
      have hplaces : s₁.m_RecvBuf.map PackPerData.place = r.session.m_RecvBuf.map PackPerData.place :=
        (RecvSession.kept_recvData hrecv).places
      have hbufs : r.session.m_RecvBuf = r₀.session.m_RecvBuf := by
        rw [ha.session]
        rfl
      rw [hbufs, hready.listening.arrived.buffers.places] at hplaces
      refine spared_of (k := k) (m := r₀.session.mem) hplaces (fun req hin => ?_) fun fr hfr => ?_
      · rw [posted_recvData hrecv htaken] at hin
        obtain ⟨hk, hext⟩ := hposted req hin
        exact ⟨hk, hext ▸ hready.listening.ne⟩
      · have hwaits : s₁.waitingFrames = r₀.session.waitingFrames := by
          rw [hframe, RecvSession.waitingFrames, RecvSession.waitingFrames, hmap]
        rw [hwaits] at hfr
        obtain ⟨g, hg, hin⟩ := hready.waiting.mem_waitingFrames.1 hfr
        exact hready.free g hg fr hin
    rw [RecvSession.takeData_eq, htaken] at hm
    dsimp only [Except.map, bind, Except.bind] at hm
    cases hgoes with
    | inl hgoes =>
      rw [hgoes.1] at hm
      cases hm
      intro s hs
      rw [List.mem_singleton.1 hs]
      exact hfirst
    | inr hgoes =>
      obtain ⟨stamp, b, hstamp, hgo, hdeliver⟩ := hgoes
      rw [hstamp] at hm
      simp only [hgo, hdeliver] at hm
      cases hm
      intro s hs
      simp only [List.mem_cons, List.not_mem_nil, or_false] at hs
      rcases hs with rfl | rfl | rfl
      · exact hfirst
      · exact hnext.spared hfree
      · exact hlast
  · cases hm
    intro s hs
    cases hs

/-- The completions after which the next request is posted in a free buffer. -/
def Spares (base : Int) (h : RecvHandle) (s : RecvSession) (todo : List Framed) (n : Nat) : Prop :=
  Hears base h s todo n ∧ s.Free base h todo n

theorem provides_spares : Provides False base h (Spares base h) := fun _ _ _ hok => ⟨hok.1.1, hok.1.2, nofun⟩

/-- In every run whose completions leave the next buffer free, no request is ever posted over frames that
wait or over bytes that were left over. -/
theorem spared_run {acts : List Feed} {packages : List NetPackage} {ms : List RecvSession} (hbase : 0 < base) (hsorts : h.Sorts)
    (hs : Starts base s) (hframes : frames.map Framed.msg = packages.flatMap NetPackage.messages)
    (hk : Along (step h frames) (Meets frames (Spares base h)) ⟨s, 0⟩ acts)
    (hrun : acts.foldlM (step h frames) ⟨s, 0⟩ = .ok r)
    (hm : r.session.parseMoments h now r.session.m_perIoDatas = .ok ms) : r.session.Spared ∧ ∀ s ∈ ms, s.Spared := by
  cases fed_run hbase hsorts provides_spares hs hframes hk hrun with
  | inl hf =>
    obtain ⟨k, q, pExtend, e, todo, gs, ps, hr⟩ := hf
    rw [hr.idle] at hm
    cases hm
    exact ⟨Ready.spared hr.ready, nofun⟩
  | inr hf =>
    obtain ⟨r₀, n, k, q, pExtend, e, todo, gs, ps, ha⟩ := hf
    have hlen : (((streamBytes todo).drop (e + q)).take n).length = n := by
      have := ha.enough
      rw [List.length_take_of_le]
      rw [List.length_drop]
      omega
    have hio : r.session.m_perIoDatas = [⟨k, n, base + 4096 * (k : Int) + q, pExtend⟩] := by
      rw [ha.session, RecvSession.completed, hlen]
    refine ⟨fun req hin => ?_, ?_⟩
    · rw [ha.session] at hin
      cases hin
    · rw [hio, RecvSession.parseMoments] at hm
      obtain ⟨ms₁, hms₁, hm⟩ := bind_eq_ok.1 hm
      obtain ⟨s₁, -, hm⟩ := bind_eq_ok.1 hm
      obtain ⟨more, hmore, hm⟩ := bind_eq_ok.1 hm
      cases hmore
      cases hm
      rw [List.append_nil]
      exact ha.moments hbase hsorts provides_spares ha.ok.2 hms₁

instance (todo : List Framed) (n : Nat) : Decidable (Spares base h s todo n) := inferInstanceAs (Decidable (_ ∧ _))

instance : Decidable s.Spared := inferInstanceAs (Decidable (∀ req ∈ s.posted, ∀ d ∈ s.m_RecvBuf[req.nIndex]?, _))

/-- The second package comes in two pieces, and the request behind it is posted in the next buffer. -/
theorem spared_run_two : ∃ r ms, [Feed.arrive 40, .parse 1, .arrive 20].foldlM (step .plain twoFrames) ⟨opened, 0⟩ = .ok r ∧
    r.session.parseMoments .plain 2 r.session.m_perIoDatas = .ok ms ∧ ms.length = 3 ∧ ∀ s ∈ ms, s.Spared := by
  have hended : ∃ r, [Feed.arrive 40, .parse 1, .arrive 20].foldlM (step .plain twoFrames) ⟨opened, 0⟩ = .ok r ∧
      ∃ ms, r.session.parseMoments .plain 2 r.session.m_perIoDatas = .ok ms ∧ ms.length = 3 := by decide +kernel
  obtain ⟨r, hr, ms, hms, hlen⟩ := hended
  have hmet : Along (step .plain twoFrames) (Meets twoFrames (Spares 4096 .plain)) ⟨opened, 0⟩ [Feed.arrive 40, .parse 1, .arrive 20] := by
    decide +kernel
  exact ⟨r, ms, hr, hms, hlen, (spared_run (by decide) RecvHandle.sorts_plain starts_opened msgs_twoFrames hmet hr hms).2⟩

/-- A package of five frames. -/
def ringFrames : List Framed := framesOf 4001 1 7 (by decide)

/-- When each of them comes by itself, the request behind the fourth is posted where the fourth waits. -/
theorem not_spared_ring : ∃ r, [Feed.arrive 1024, .parse 0, .arrive 1024, .parse 0, .arrive 1024, .parse 0, .arrive 1024, .parse 0].foldlM
      (step .plain ringFrames) ⟨opened, 0⟩ = .ok r ∧ ¬r.session.Spared := by decide +kernel

end Feeding
