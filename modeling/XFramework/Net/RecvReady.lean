/-
A session that is fed a stream of frames (Net/SocketSession.cpp).

Between two completions one request is posted, at most one package waits, and
its frames lie in other buffers than the one the next bytes come to
(`Ready`). A completion that meets `Clean` leaves the session so
(`Ready.step`). `Clean` speaks of lengths and of places only, and leaves out
what the code does not provide for: a read of no more than 24 bytes, a part of a
frame that stays incomplete, two packages of one timestamp, and a ring of
buffers that comes back to frames that still wait.
-/
import XFramework.Net.RecvRing
import XFramework.Net.RecvKept
import XFramework.Net.Timestamps

open Bytes Fallible

namespace RecvSession

/-- The frames that wait. -/
def waitingFrames (s : RecvSession) : List MsgFrame := s.m_mapFrames.entries.flatMap (·.2)

/-- The buffer before the one the next bytes come to. -/
def extendOf (s : RecvSession) : Option Nat := s.m_RecvBuf[s.m_rPostIndex]?.bind (·.m_pPrevPerData)

/-- How many bytes of a frame were left over there. -/
def leftOver (s : RecvSession) : Nat := ((s.extendOf.bind fun j => s.m_RecvBuf[j]?).map (·.m_nExtendLen)).getD 0

/-- How many bytes of a frame are in the buffer the next bytes come to. -/
def partIn (s : RecvSession) : Nat :=
  ((s.posted.head?.bind fun req => s.m_RecvBuf[req.nIndex]?.map fun d => (req.pStart - d.m_frame.m_buf).toNat)).getD 0

/-- What `n` more bytes of the frames `todo` bring. -/
def arrival (s : RecvSession) (todo : List Framed) (n : Nat) : Arrival := .of s.leftOver (s.partIn + n) todo

/-- The frames as they are then entered. -/
def newFrames (base : Int) (s : RecvSession) (todo : List Framed) (n : Nat) : List MsgFrame :=
  (s.arrival todo n).frames base (s.extendOf.getD 0) s.m_rPostIndex

/-- The frames of the package that is then under way. -/
def nextFrames (base : Int) (s : RecvSession) (todo : List Framed) (n : Nat) : List MsgFrame :=
  underWay s.waitingFrames (s.newFrames base todo n) (s.arrival todo n).msgs

/-- The package under way is then not complete, and the request behind it is still to be posted. -/
def GoesOn (base : Int) (s : RecvSession) (todo : List Framed) (n : Nat) : Prop :=
  ¬(s.arrival todo n).Partial ∧ ∃ msg ∈ (s.arrival todo n).msgs.getLast?, (s.nextFrames base todo n).length < msg.total

instance (base : Int) (s : RecvSession) (todo : List Framed) (n : Nat) : Decidable (s.GoesOn base todo n) :=
  inferInstanceAs (Decidable (_ ∧ ∃ msg ∈ (s.arrival todo n).msgs.getLast?, _))

/-- The completions the receiver provides for. With `exact`, no frame that waits is overwritten. -/
structure Clean (exact : Prop) (base : Int) (h : RecvHandle) (s : RecvSession) (todo : List Framed) (n : Nat) : Prop where
  -- a frame that was left over is completed, and it was not whole
  joins : 0 < s.leftOver → ∃ f ∈ todo.head?, s.leftOver < f.length ∧ f.length ≤ s.leftOver + n
  -- more than a head is in the buffer, or nothing behind the frame that was left over
  enough : 24 < (s.arrival todo n).total ∨ 0 < s.leftOver ∧ (s.arrival todo n).total = 0
  -- the notice status is not left over from an earlier frame of the buffer
  unset : (s.arrival todo n).Partial → ∀ d ∈ s.m_RecvBuf[s.m_rPostIndex]?, d.m_isFinish = false
  -- the frame that was left over is moved where no other frame waits
  apart : 0 < s.leftOver → ∀ f ∈ todo.head?, ∀ fr ∈ s.waitingFrames, fr.m_index = (s.extendOf.getD 0 : Nat) →
    base + 4096 * ((s.extendOf.getD 0 : Nat) : Int) + f.length ≤ fr.m_buf ∨
      ¬exact ∧ fr.m_buf = base + 4096 * ((s.extendOf.getD 0 : Nat) : Int)
  -- the next buffer of the ring is free
  left : s.GoesOn base todo n → (s.arrival todo n).left > 0 →
    nextOf s.m_rPostIndex (h.sort (s.nextFrames base todo n)) ≠ s.m_rPostIndex
  ring : s.GoesOn base todo n → ∀ fr ∈ s.nextFrames base todo n,
    fr.m_index ≠ nextOf s.m_rPostIndex (h.sort (s.nextFrames base todo n))

/-- The packages that wait have timestamps of their own. -/
def KeysApart (s : RecvSession) (todo : List Framed) (n : Nat) : Prop :=
  (s.m_mapFrames.entries.map (·.1) ++ newKeys (s.arrival todo n).msgs).Nodup

instance (s : RecvSession) (todo : List Framed) (n : Nat) : Decidable (s.KeysApart todo n) := inferInstanceAs (Decidable (List.Nodup _))

end RecvSession

/-- Between two completions. `gs` are the packages that wait, and `ps` those behind them in the stream. -/
structure Ready (exact : Prop) (base : Int) (s : RecvSession) (k q : Nat) (pExtend : Option Nat) (e : Nat) (todo : List Framed)
    (gs : List FrameGroup) (ps : List NetPackage) : Prop where
  listening : Listening base s k q pExtend e todo
  waiting : Waiting exact s.mem s.m_mapFrames gs
  incomplete : ∀ g ∈ gs, ¬g.Complete
  stream : ahead gs ++ ps.flatMap NetPackage.messages = todo.map Framed.msg
  sized : ∀ p ∈ gs.map FrameGroup.pkg ++ ps, p.Sized
  free : ∀ g ∈ gs, ∀ fr ∈ g.frames, ∃ i, i < 4 ∧ i ≠ k ∧ fr.LiesIn base s.mem i

variable {exact : Prop} {base : Int} {s : RecvSession} {h : RecvHandle} {k q e n : Nat} {pExtend : Option Nat} {todo : List Framed}
  {gs : List FrameGroup} {ps : List NetPackage} {m m' : Mem} {map : StdMap Int (List MsgFrame)}

/-! ## What the state says -/

/-- At most one package waits. -/
theorem incomplete_single (hw : Waiting exact m map gs) (hnone : ∀ g ∈ gs, ¬g.Complete) : gs = [] ∨ ∃ g, gs = [g] := by
  rcases gs with _ | ⟨g, _ | ⟨g', gs⟩⟩
  · exact .inl rfl
  · exact .inr ⟨g, rfl⟩
  · exact absurd (hw.full g (by simp)) (hnone g List.mem_cons_self)

namespace Ready

variable (hr : Ready exact base s k q pExtend e todo gs ps)

include hr

theorem entries : s.m_mapFrames.entries = gs.map FrameGroup.entry := by
  rw [hr.waiting.entries]
  rcases incomplete_single hr.waiting hr.incomplete with rfl | ⟨g, rfl⟩
  · rfl
  · rfl

theorem keys : s.m_mapFrames.entries.map (·.1) = gs.map FrameGroup.key := by
  rw [hr.entries, List.map_map]
  rfl

theorem waitingFrames : s.waitingFrames = lastFrames gs := by
  rw [RecvSession.waitingFrames, hr.entries]
  rcases incomplete_single hr.waiting hr.incomplete with rfl | ⟨g, rfl⟩
  · rfl
  · simp [lastFrames, FrameGroup.entry]

theorem mem_waitingFrames {g : FrameGroup} {fr : MsgFrame} (hg : g ∈ gs) (hfr : fr ∈ g.frames) : fr ∈ s.waitingFrames := by
  rw [RecvSession.waitingFrames, hr.entries, List.mem_flatMap]
  exact ⟨g.entry, List.mem_map_of_mem hg, hfr⟩

theorem extendOf : s.extendOf = pExtend := by
  have ha := hr.listening.arrived
  obtain ⟨d, hd⟩ := ha.buffers.get ha.lt
  rw [RecvSession.extendOf, hr.listening.place, hd]
  exact ha.prev d hd

theorem leftOver : s.leftOver = e := by
  have ha := hr.listening.arrived
  rw [RecvSession.leftOver, hr.extendOf]
  by_cases hpos : 0 < e
  · obtain ⟨j, d, f, rest, p, hext, -, hd, -, hover, -⟩ := ha.left hpos
    simp only [hext, Option.bind_some, hd, Option.map_some, Option.getD_some, hover.len]
  · have hzero := Nat.eq_zero_of_not_pos hpos
    cases hext : pExtend with
    | none => exact hzero.symm
    | some j =>
      obtain ⟨d, hd⟩ := ha.buffers.get (ha.lt_ext j hext)
      simp only [Option.bind_some, hd, Option.map_some, Option.getD_some, ha.zero j d hd (.inl hzero), hzero]

theorem partIn : s.partIn = q := by
  have ha := hr.listening.arrived
  obtain ⟨d, hd⟩ := ha.buffers.get ha.lt
  obtain ⟨n, hposted, -⟩ := hr.listening.posted
  rw [RecvSession.partIn, hposted]
  simp only [List.head?_cons, Option.bind_some, hd, Option.map_some, Option.getD_some, (ha.buffers.place k d hd).buf]
  omega

theorem arrival : s.arrival todo n = .of e (q + n) todo := by rw [RecvSession.arrival, hr.leftOver, hr.partIn]

theorem newFrames : s.newFrames base todo n = (Arrival.of e (q + n) todo).frames base (pExtend.getD 0) k := by
  rw [RecvSession.newFrames, hr.arrival, hr.extendOf, hr.listening.place]

end Ready

/-! ## A completion -/

/-- The next bytes of the stream arrive behind those of the buffer. -/
theorem Arrived.write {bufs : List PackPerData} {bs : List UInt8} (ha : Arrived base m bufs k pExtend e q todo)
    (hbs : bs = ((streamBytes todo).drop (e + q)).take n) (henough : e + q + n ≤ (streamBytes todo).length) (hfits : q + n ≤ 4096) :
    Arrived base (Bytes.write m (base + 4096 * (k : Int) + q) bs) bufs k pExtend e (q + n) todo := by
  have hlen : bs.length = n := by
    rw [hbs, List.length_take_of_le]
    rw [List.length_drop]
    omega
  have hq : (((streamBytes todo).drop e).take q).length = q := by
    rw [List.length_take_of_le]
    rw [List.length_drop]
    omega
  refine ⟨ha.buffers, ha.lt, ha.lt_ext, ha.prev, hfits, by omega, ?_, ha.zero, fun hpos => ?_⟩
  · have hext := ha.lies.extend bs
    rw [hq] at hext
    rwa [List.take_add, List.drop_drop, ← hbs]
  · obtain ⟨j, d, f, rest, p, hext, hne, hd, htodo, hover, hend⟩ := ha.left hpos
    refine ⟨j, d, f, rest, p, hext, hne, hd, htodo, ⟨hover.pos, hover.len, hover.start, hover.above, ?_⟩, hend⟩
    have habove := hover.above
    have hcut := List.length_take_le e f.bytes
    rw [(ha.buffers.place j d hd).buf] at habove
    refine hover.lies.write_other ?_
    omega

namespace RecvSession

/-- A session whose request was completed. -/
def completed (s : RecvSession) (k q : Nat) (pExtend : Option Nat) (base : Int) (bs : List UInt8) : RecvSession :=
  { s with
    mem := write s.mem (base + 4096 * (k : Int) + q) bs
    posted := []
    m_perIoDatas := [⟨k, bs.length, base + 4096 * (k : Int) + q, pExtend⟩] }

end RecvSession

/-- The bytes the request asks for at most. -/
theorem Ready.complete (bs : List UInt8) (hr : Ready exact base s k q pExtend e todo gs ps) (hbase : 0 < base) (hidle : s.m_perIoDatas = [])
    (hne : bs ≠ []) (hlen : ∀ req ∈ s.posted, bs.length ≤ req.len) : s.complete bs = .ok (s.completed k q pExtend base bs) := by
  obtain ⟨n, hposted, -⟩ := hr.listening.posted
  have hlt := hr.listening.arrived.lt
  have hlength := hr.listening.arrived.buffers.length
  have hle := hlen _ (by rw [hposted]; exact List.mem_singleton_self _)
  have hask : ¬(bs = [] ∨ bs.length > n) := not_or.2 ⟨hne, Nat.not_lt.2 hle⟩
  simp only [RecvSession.complete, hposted]
  rw [if_neg hask, RecvSession.dispatchData]
  dsimp only
  rw [if_neg (by omega), if_neg (by omega), hidle]
  rfl

theorem Ready.fits (hr : Ready exact base s k q pExtend e todo gs ps) (hlen : ∀ req ∈ s.posted, n ≤ req.len) :
    q + n ≤ 4096 ∧ (q = 0 ∨ ∃ f ∈ todo.head?, q + n ≤ f.length) := by
  obtain ⟨len, hposted, hcase⟩ := hr.listening.posted
  have hle := hlen _ (by rw [hposted]; exact List.mem_singleton_self _)
  dsimp only at hle
  rcases hcase with ⟨rfl, rfl⟩ | ⟨-, -, f, rest, rfl, hlt, rfl⟩
  · exact ⟨by omega, .inl rfl⟩
  · have := f.length_le
    exact ⟨by omega, .inr ⟨f, rfl, by omega⟩⟩

/-! ## Frames that wait -/

theorem Waiting.imp_holds (hw : Waiting exact m map gs)
    (hholds : ∀ g ∈ gs, ∀ fr ∈ g.frames, ∀ msg ∈ g.pkg.messages.take g.frames.length, Holds exact m fr msg → Holds exact m' fr msg) :
    Waiting exact m' map gs := by
  refine ⟨hw.keys, hw.mem, fun g hg => ?_, hw.full⟩
  obtain ⟨msgs, hperm, hall, hsame⟩ := (hw.begun g hg).holds
  refine ⟨(hw.begun g hg).ne_nil, msgs, hperm, ?_, hsame⟩
  rw [List.forall₂_iff_zip] at hall ⊢
  refine ⟨hall.1, fun {fr msg} hin => ?_⟩
  obtain ⟨hfr, hmsg⟩ := List.of_mem_zip hin
  exact hholds g hg fr hfr msg (hperm.subset hmsg) (hall.2 hin)

/-- A frame whose place was taken by another frame of its package. -/
theorem Holds.replaced {fr fr' : MsgFrame} {msg msg' : Message} (hf : Holds True m fr' msg') (hexact : ¬exact)
    (hbuf : fr.m_buf = fr'.m_buf) (hpkg : msg.pkg = msg'.pkg) (htotal : msg.total = msg'.total)
    (hle : msg'.chunk.length ≤ msg.chunk.length) : Holds exact m fr msg := by
  refine ⟨?_, ?_, ?_, ?_, ?_, fun he => absurd he hexact⟩
  · rw [frameKey, hbuf, hpkg]
    exact hf.key
  · rw [totalFrames, hbuf, htotal]
    exact hf.total
  · rw [hbuf, hpkg]
    exact hf.tSrcLen
  · rw [hbuf, hpkg]
    exact hf.tDataLen
  · rw [hbuf]
    exact hf.nDataLen.trans hle

/-- All chunks but the last are as long as can be. -/
theorem NetPackage.length_chunk_of_take {p : NetPackage} {msg : Message} {c : Nat} (hs : p.Sized) (hc : c < p.chunkCount)
    (hmsg : msg ∈ p.messages.take c) : msg.chunk.length = 1000 := by
  obtain ⟨i, hi, rfl⟩ := List.mem_iff_getElem.1 hmsg
  have hlen : (p.m_pData.getD []).length = p.m_len := hs
  rw [List.length_take] at hi
  rw [NetPackage.chunkCount] at hc
  simp only [List.getElem_take, NetPackage.messages, List.getElem_map, List.getElem_range, List.length_take, List.length_drop, hlen]
  omega

/-! ## A pass -/

/-- The first frame of the stream belongs to the package that waits. -/
theorem Ready.first_pkg {f : Framed} {rest : List Framed} {g : FrameGroup} (hr : Ready exact base s k q pExtend e (f :: rest) gs ps)
    (hg : g ∈ gs) : f.msg.pkg = g.pkg := by
  rcases incomplete_single hr.waiting hr.incomplete with hnil | ⟨g', hgs⟩
  · rw [hnil] at hg
    cases hg
  · have hstream := hr.stream
    subst hgs
    rw [List.mem_singleton.1 hg]
    have hne : g'.missing ≠ [] := fun hnil => hr.incomplete g' (List.mem_singleton_self _)
      ((missing_eq_nil (hr.waiting.begun g' (List.mem_singleton_self _))).1 hnil)
    obtain ⟨msg, rest', hmissing⟩ := List.exists_cons_of_ne_nil hne
    rw [show [g'] = [] ++ [g'] from rfl, ahead_concat, hmissing, List.cons_append, List.map_cons] at hstream
    injection hstream with hhead
    rw [← hhead]
    refine NetPackage.pkg_of_mem (List.mem_of_mem_drop (i := g'.frames.length) ?_)
    rw [FrameGroup.missing] at hmissing
    rw [hmissing]
    exact List.mem_cons_self

theorem Untouched.load {fr : MsgFrame} (hu : Untouched m m' fr) : MsgHead.load m' fr.m_buf = MsgHead.load m fr.m_buf := by
  rw [Untouched, read_append, read_append] at hu
  exact congrArg MsgHead.ofBytes (List.append_inj hu (by rw [length_read, length_read])).1

/-- What becomes of a frame that waits: it is as it was, or the frame that was left over is in its place. -/
def Survives (exact : Prop) (base : Int) (m m' : Mem) (j : Nat) (todo : List Framed) (fr : MsgFrame) : Prop :=
  Untouched m m' fr ∨ ¬exact ∧ ∃ f rest fr', todo = f :: rest ∧ Holds True m' fr' f.msg ∧ fr'.LiesIn base m' j ∧
    fr.m_index = (j : Int) ∧ fr.m_buf = fr'.m_buf

theorem Survives.liesIn {fr : MsgFrame} {i j : Nat} (hs : Survives exact base m m' j todo fr) (hin : fr.LiesIn base m i) :
    fr.LiesIn base m' i := by
  cases hs with
  | inl hu => exact ⟨hin.index, hin.above, by rw [hu.load]; exact hin.below⟩
  | inr hs =>
    obtain ⟨-, f, rest, fr', -, -, hlies, hindex, hbuf⟩ := hs
    have hij : i = j := by
      have := hin.index
      omega
    subst hij
    exact ⟨hin.index, hin.above, by rw [hbuf]; exact hlies.below⟩

theorem Ready.waiting_survives {j : Nat} (hr : Ready exact base s k q pExtend e todo gs ps)
    (hs : ∀ g ∈ gs, ∀ fr ∈ g.frames, Survives exact base s.mem m' j todo fr) : Waiting exact m' s.m_mapFrames gs := by
  refine hr.waiting.imp_holds fun g hg fr hfr msg hmsg hf => ?_
  cases hs g hg fr hfr with
  | inl hu => exact hf.untouched hu
  | inr hs =>
    obtain ⟨hexact, f, rest, fr', htodo, hf', -, -, hbuf⟩ := hs
    subst htodo
    have hfirst := hr.first_pkg hg
    have hin := List.mem_of_mem_take hmsg
    have hpkg := NetPackage.pkg_of_mem hin
    have hsized : g.pkg.Sized := hr.sized _ (List.mem_append_left _ (List.mem_map_of_mem hg))
    have hlt := Nat.lt_of_le_of_ne (hr.waiting.begun g hg).length_le (hr.incomplete g hg)
    refine hf'.replaced hexact hbuf (hpkg.trans hfirst.symm) ?_ ?_
    · rw [(NetPackage.total_of_mem hin).1, (NetPackage.total_of_mem f.mem).1, hfirst]
    · rw [NetPackage.length_chunk_of_take hsized hlt hmsg]
      exact NetPackage.length_chunk f.mem

/-- What is known when the frames of a completion are taken. -/
structure Taking (exact : Prop) (base : Int) (s p : RecvSession) (k : Nat) (pExtend : Option Nat) (a : Arrival) (todo todo' : List Framed)
    (gs : List FrameGroup) (t : Taken) : Prop where
  brought : Brought base p k pExtend a todo todo' t
  waiting : Waiting exact t.mem s.m_mapFrames gs
  free : ∀ g ∈ gs, ∀ fr ∈ g.frames, ∃ i, i < 4 ∧ i ≠ k ∧ fr.LiesIn base t.mem i

theorem joined_of (e : Nat) (todo : List Framed) (t : Nat) : (Arrival.of e t todo).joined = if e = 0 then [] else todo.take 1 := by
  by_cases he : e = 0
  · subst he
    rw [Arrival.of_zero, Arrival.joined_ofBuffer, if_pos rfl]
  · rw [if_neg he]
    cases todo with
    | nil =>
      rw [Arrival.of, if_neg he]
      rfl
    | cons f rest =>
      rw [Arrival.of_pos t f rest he, Arrival.joined_ofBuffer]
      rfl

/-- The frames that wait, after a completion has been taken. -/
theorem Brought.survives {p : RecvSession} {t : Taken} {todo' : List Framed} {fr : MsgFrame} {T i : Nat}
    (hb : Brought base p k pExtend (Arrival.of e T todo) todo todo' t)
    (hmem : ∀ x, x < base + 4096 * (k : Int) ∨ base + 4096 * (k : Int) + 4096 ≤ x → p.mem x = m x)
    (hext : 0 < e → pExtend.getD 0 ≠ k) (hik : i ≠ k) (hin : fr.LiesIn base m i)
    (hapart : 0 < e → ∀ f ∈ todo.head?, fr.m_index = (pExtend.getD 0 : Nat) →
      base + 4096 * ((pExtend.getD 0 : Nat) : Int) + f.length ≤ fr.m_buf ∨
        ¬exact ∧ fr.m_buf = base + 4096 * ((pExtend.getD 0 : Nat) : Int)) :
    Survives exact base m t.mem (pExtend.getD 0) todo fr := by
  have habove := hin.above
  have hbelow := hin.below
  have hindex := hin.index
  by_cases he : e = 0
  · refine .inl (read_congr fun x hlow hhigh => ?_)
    have hout : x < base + 4096 * (k : Int) ∨ base + 4096 * (k : Int) + 4096 ≤ x := by omega
    rw [hb.same x hout (by
      rw [joined_of, if_pos he]
      exact fun f hf => nomatch hf), hmem x hout]
  · have hpos := Nat.pos_of_ne_zero he
    have hjoined := joined_of e todo T
    rw [if_neg he] at hjoined
    cases todo with
    | nil =>
      refine .inl (read_congr fun x hlow hhigh => ?_)
      have hout : x < base + 4096 * (k : Int) ∨ base + 4096 * (k : Int) + 4096 ≤ x := by omega
      rw [hb.same x hout (by
        rw [hjoined]
        exact fun f hf => nomatch hf), hmem x hout]
    | cons f rest =>
      have hside := hapart hpos f rfl
      have hfl := f.length_le
      have hjoined' : (Arrival.of e T (f :: rest)).joined = [f] := hjoined
      by_cases hfar : i ≠ pExtend.getD 0 ∨ base + 4096 * ((pExtend.getD 0 : Nat) : Int) + f.length ≤ fr.m_buf
      · refine .inl (read_congr fun x hlow hhigh => ?_)
        have hout : x < base + 4096 * (k : Int) ∨ base + 4096 * (k : Int) + 4096 ≤ x := by omega
        rw [hb.same x hout (by
          rw [hjoined']
          intro f' hf'
          rw [List.mem_singleton.1 hf']
          omega), hmem x hout]
      · have hij : i = pExtend.getD 0 := by
          by_contra hne
          exact hfar (.inl hne)
        have hnear := hside (by rw [hindex, hij])
        have hbase' : ¬exact ∧ fr.m_buf = base + 4096 * ((pExtend.getD 0 : Nat) : Int) := by
          cases hnear with
          | inl hge => exact absurd (.inr hge) hfar
          | inr h => exact h
        obtain ⟨hexact, hbuf⟩ := hbase'
        have hframes := hb.frames
        have hholds := hb.holds
        rw [Arrival.frames, hjoined', List.map_singleton, List.singleton_append] at hframes
        rw [hframes, Arrival.msgs, hjoined', List.singleton_append, List.map_cons] at hholds
        cases hholds with
        | cons hfirst hrest =>
          have hlies := hb.liesIn _ (by rw [hframes]; exact List.mem_cons_self)
          refine .inr ⟨hexact, f, rest, _, rfl, hfirst, ?_, by rw [hindex, hij], hbuf⟩
          cases hlies with
          | inl hk =>
            have := hk.index
            have := hext hpos
            dsimp only at *
            omega
          | inr hj => exact hj.2

theorem Ready.taken {bs : List UInt8} (hr : Ready exact base s k q pExtend e todo gs ps) (hc : RecvSession.Clean exact base h s todo n)
    (hn : 0 < n) (hlen : ∀ req ∈ s.posted, n ≤ req.len) (hbs : bs = ((streamBytes todo).drop (e + q)).take n)
    (henough : e + q + n ≤ (streamBytes todo).length) :
    ∃ t todo', (s.completed k q pExtend base bs).taken k ⟨k, bs.length, base + 4096 * (k : Int) + q, pExtend⟩ = .ok t ∧
      Taking exact base s (s.completed k q pExtend base bs) k pExtend (s.arrival todo n) todo todo' gs t := by
  obtain ⟨hfits, hrest⟩ := hr.fits hlen
  have ha := hr.listening.arrived.write hbs henough hfits
  have hlength : bs.length = n := by
    rw [hbs, List.length_take_of_le]
    rw [List.length_drop]
    omega
  have hq : 0 < e → q = 0 := by
    obtain ⟨len, -, hcase⟩ := hr.listening.posted
    intro hpos
    rcases hcase with ⟨hq, -⟩ | ⟨-, he, -⟩
    · exact hq
    · omega
  have hjoins := hc.joins
  have henough' := hc.enough
  have hunset := hc.unset
  have hapart := hc.apart
  rw [hr.leftOver] at hjoins henough' hapart
  rw [hr.listening.place] at hunset
  rw [hr.extendOf] at hapart
  rw [hr.arrival] at henough' hunset ⊢
  obtain ⟨t, todo', htaken, hb⟩ := Arrived.brought (s := s.completed k q pExtend base bs) (q := q)
    ⟨k, bs.length, base + 4096 * (k : Int) + q, pExtend⟩ ha rfl rfl (by dsimp only; omega) (by omega) hq
    (fun hpos => by
      obtain ⟨f, hf, hlt, hle⟩ := hjoins hpos
      exact ⟨f, hf, hlt, by rw [hq hpos, Nat.zero_add]; exact hle⟩)
    henough' hrest (fun hp d hd => hunset hp d hd)
  have hext : 0 < e → pExtend.getD 0 ≠ k := fun hpos => by
    obtain ⟨j, d, f, rest, p, hext, hne, -⟩ := hr.listening.arrived.left hpos
    rw [hext, Option.getD_some]
    exact hne
  have hsurvives : ∀ g ∈ gs, ∀ fr ∈ g.frames, Survives exact base s.mem t.mem (pExtend.getD 0) todo fr := fun g hg fr hfr => by
    obtain ⟨i, hi, hik, hin⟩ := hr.free g hg fr hfr
    refine hb.survives (fun x hx => write_other ?_) hext hik hin fun hpos f hf hindex =>
      hapart hpos f hf fr (hr.mem_waitingFrames hg hfr) hindex
    omega
  refine ⟨t, todo', htaken, hb, hr.waiting_survives hsurvives, fun g hg fr hfr => ?_⟩
  obtain ⟨i, hi, hik, hin⟩ := hr.free g hg fr hfr
  exact ⟨i, hi, hik, (hsurvives g hg fr hfr).liesIn hin⟩

/-! ## What a pass leaves -/

/-- A part of a frame of the stream is in the buffer, when nothing else was brought. -/
theorem Asked.listening {t : Taken} {a : Arrival} {todo' : List Framed} {s₁ : RecvSession}
    (ha : Asked base k pExtend [] a todo' t) (htotal : 24 < a.total) (hmem : s₁.mem = t.mem) (hbufs : s₁.m_RecvBuf = t.m_RecvBuf)
    (hposted : s₁.posted = t.posted) (honline : s₁.m_bOnline = true) (hplace : s₁.m_rPostIndex = k) (hne : pExtend ≠ some k) :
    Listening base s₁ k a.total pExtend 0 todo' := by
  obtain ⟨f, rest, htodo, hlt, hreq⟩ := ha.posted
  refine ⟨honline, hplace, ?_, ⟨f.length - a.total, ?_, .inr ⟨htotal, rfl, f, rest, htodo, hlt, rfl⟩⟩,
    fun hpos => absurd hpos (lt_irrefl 0), fun hpos => absurd hpos (lt_irrefl 0), hne⟩
  · rw [hmem, hbufs]
    exact ha.arrived
  · rw [hposted, hreq, List.nil_append]

/-- How many bytes of the stream were taken. -/
theorem Arrival.length_of {T : Nat} (hjoin : 0 < e → ∃ f ∈ todo.head?, f.length ≤ e + T) :
    (streamBytes (Arrival.of e T todo).joined).length + (Arrival.of e T todo).total = e + T := by
  by_cases he : e = 0
  · subst he
    rw [Arrival.of_zero, Arrival.joined_ofBuffer, Arrival.total_ofBuffer]
    simp [streamBytes]
  · obtain ⟨f, hf, hle⟩ := hjoin (Nat.pos_of_ne_zero he)
    cases todo with
    | nil => cases hf
    | cons f' rest =>
      cases hf
      rw [Arrival.of_pos T f rest he, Arrival.joined_ofBuffer, Arrival.total_ofBuffer, streamBytes_cons, List.length_append,
        Framed.length_bytes]
      simp only [streamBytes, List.flatMap_nil, List.length_nil]
      omega

theorem Arrival.length_own {T : Nat} (hnot : ¬(Arrival.of e T todo).Partial) (henough : e + T ≤ (streamBytes todo).length)
    (hjoin : 0 < e → ∃ f ∈ todo.head?, f.length ≤ e + T) :
    (streamBytes (Arrival.of e T todo).own).length + (Arrival.of e T todo).left = (Arrival.of e T todo).total := by
  have hbuffer (joined : List Framed) (T : Nat) (todo : List Framed) (hnot : ¬(Arrival.ofBuffer joined T todo).Partial)
      (henough : T ≤ (streamBytes todo).length) :
      (streamBytes (Arrival.ofBuffer joined T todo).own).length + (Arrival.ofBuffer joined T todo).left =
        (Arrival.ofBuffer joined T todo).total := by
    cases todo with
    | nil =>
      have hzero : T = 0 := Nat.eq_zero_of_le_zero henough
      rw [hzero]
      rfl
    | cons f fs =>
      rw [Arrival.ofBuffer] at hnot ⊢
      split_ifs at hnot ⊢ with hlt
      · have hzero : T = 0 := by
          by_contra hne
          exact hnot ⟨rfl, Nat.pos_of_ne_zero hne⟩
        rw [hzero]
        rfl
      · obtain ⟨rest, -, hlen, -⟩ := PackPerData.whole_prefix (T - f.length) fs
        dsimp only
        rw [streamBytes_cons, List.length_append, Framed.length_bytes, Nat.add_assoc, hlen]
        exact Nat.add_sub_cancel' (Nat.not_lt.1 hlt)
  by_cases he : e = 0
  · subst he
    rw [Arrival.of_zero] at hnot ⊢
    exact hbuffer _ _ _ hnot (by omega)
  · obtain ⟨f, hf, hle⟩ := hjoin (Nat.pos_of_ne_zero he)
    cases todo with
    | nil => cases hf
    | cons f' rest =>
      cases hf
      rw [Arrival.of_pos T f rest he] at hnot ⊢
      rw [streamBytes_cons, List.length_append, Framed.length_bytes] at henough
      exact hbuffer _ _ _ hnot (by omega)

/-- No frame that waits, and nothing that was left over, is in the buffer of a request. -/
def RecvSession.Spared (s : RecvSession) : Prop :=
  ∀ req ∈ s.posted, ∀ d ∈ s.m_RecvBuf[req.nIndex]?,
    (∀ fr ∈ s.waitingFrames, fr.m_buf < d.m_frame.m_buf ∨ d.m_frame.m_buf + d.m_frame.len ≤ fr.m_buf) ∧
      req.pExtend ≠ some req.nIndex

theorem Waiting.mem_waitingFrames {fr : MsgFrame} (hw : Waiting exact m s.m_mapFrames gs) :
    fr ∈ s.waitingFrames ↔ ∃ g ∈ gs, fr ∈ g.frames := by
  rw [RecvSession.waitingFrames, List.mem_flatMap]
  refine ⟨?_, ?_⟩
  · intro ⟨x, hx, hfr⟩
    obtain ⟨g, hg, rfl⟩ := (hw.mem x).1 (StdMap.mem_entries.1 hx)
    exact ⟨g, hg, hfr⟩
  · intro ⟨g, hg, hfr⟩
    exact ⟨g.entry, StdMap.mem_entries.2 ((hw.mem _).2 ⟨g, hg, rfl⟩), hfr⟩

/-- Where the buffers lie. -/
theorem Bufs.places {bufs : List PackPerData} (hb : Bufs base bufs) :
    bufs.map PackPerData.place = (List.range 4).map fun i : Nat => (base + 4096 * (i : Int), 4096) := by
  refine List.ext_getElem? fun i => ?_
  rw [List.getElem?_map, List.getElem?_map]
  by_cases hi : i < 4
  · obtain ⟨d, hd⟩ := hb.get hi
    have hat := hb.place i d hd
    rw [hd, List.getElem?_range hi, Option.map_some, Option.map_some, PackPerData.place, hat.buf, hat.len]
  · rw [List.getElem?_eq_none (by rw [hb.length]; omega), List.getElem?_eq_none (by rw [List.length_range]; omega)]
    rfl

theorem spared_of (hplaces : s.m_RecvBuf.map PackPerData.place = (List.range 4).map fun i : Nat => (base + 4096 * (i : Int), 4096))
    (hreq : ∀ req ∈ s.posted, req.nIndex = k ∧ req.pExtend ≠ some k)
    (hfree : ∀ fr ∈ s.waitingFrames, ∃ i, i < 4 ∧ i ≠ k ∧ fr.LiesIn base m i) : s.Spared := by
  intro req hin d hd
  obtain ⟨rfl, hne⟩ := hreq req hin
  have hlt : req.nIndex < 4 := by
    have hlen := congrArg List.length hplaces
    rw [List.length_map, List.length_map, List.length_range] at hlen
    exact hlen ▸ (List.getElem?_eq_some_iff.1 hd).1
  have hplace := congrArg (·[req.nIndex]?) hplaces
  simp only [List.getElem?_map, List.getElem?_range hlt, Option.mem_def.1 hd, Option.map_some] at hplace
  obtain ⟨hbuf, hlen⟩ := Prod.mk.inj (Option.some.inj hplace)
  refine ⟨fun fr hfr => ?_, hne⟩
  obtain ⟨i, hi, hik, hlies⟩ := hfree fr hfr
  have habove := hlies.above
  have hbelow := hlies.below
  rw [hbuf, hlen]
  omega

theorem Listening.spared (hl : Listening base s k q pExtend e todo)
    (hfree : ∀ fr ∈ s.waitingFrames, ∃ i, i < 4 ∧ i ≠ k ∧ fr.LiesIn base m i) : s.Spared := by
  refine spared_of hl.arrived.buffers.places (fun req hin => ?_) hfree
  obtain ⟨n, hposted, -⟩ := hl.posted
  rw [hposted] at hin
  rw [List.mem_singleton.1 hin]
  exact ⟨rfl, hl.ne⟩

/-- The packages that are complete are handed out in the order of the stream. -/
theorem handed_eq (hw : Waiting exact m map gs) (hs : ((gs.filter fun g => decide g.Complete).map FrameGroup.key).Pairwise (· < ·)) :
    handed gs = gs.filter fun g => decide g.Complete := by
  have hsorted : (handed gs).Pairwise fun a b => a.key ≤ b.key := (FrameGroup.sorted_inOrder gs).filter _
  refine (perm_handed gs).eq_of_pairwise (fun a b ha hb hab hba => ?_) hsorted ((List.pairwise_map.1 hs).imp le_of_lt)
  exact List.inj_on_of_nodup_map hw.keys (mem_handed.1 ha).1 (List.mem_of_mem_filter hb) (le_antisymm hab hba)

namespace RecvSession

/-- The packages that are complete after the pass have increasing timestamps. -/
def InOrder (base : Int) (s : RecvSession) (todo : List Framed) (n : Nat) : Prop :=
  if ∃ msg ∈ (s.arrival todo n).msgs.getLast?, (s.nextFrames base todo n).length < msg.total then
    (s.m_mapFrames.entries.map (·.1) ++ newKeys (s.arrival todo n).msgs).dropLast.Pairwise (· < ·)
  else (s.m_mapFrames.entries.map (·.1) ++ newKeys (s.arrival todo n).msgs).Pairwise (· < ·)

/-- The frames of the package under way are in the order in which `sort` leaves them. -/
def Sorted (base : Int) (h : RecvHandle) (s : RecvSession) (todo : List Framed) (n : Nat) : Prop :=
  s.GoesOn base todo n → h.sort (s.nextFrames base todo n) = s.nextFrames base todo n

/-- No frame that waits is in the next buffer of the ring, also none of a package that is complete by now. -/
def Free (base : Int) (h : RecvHandle) (s : RecvSession) (todo : List Framed) (n : Nat) : Prop :=
  s.GoesOn base todo n → ∀ fr ∈ s.waitingFrames ++ s.newFrames base todo n,
    fr.m_index ≠ nextOf s.m_rPostIndex (h.sort (s.nextFrames base todo n))

variable (base : Int) (h : RecvHandle) (s : RecvSession) (todo : List Framed) (n : Nat)

instance : Decidable (s.InOrder base todo n) :=
  inferInstanceAs (Decidable (if ∃ msg ∈ (s.arrival todo n).msgs.getLast?, _ then _ else _))

instance : Decidable (s.Sorted base h todo n) := inferInstanceAs (Decidable (_ → _))

instance : Decidable (s.Free base h todo n) := inferInstanceAs (Decidable (_ → ∀ fr ∈ s.waitingFrames ++ s.newFrames base todo n, _))

end RecvSession

/-- The session after a pass: `s₃` is the one after `goOn`. -/
def Goes (h : RecvHandle) (now : Int) (p : RecvSession) (k : Nat) (t : Taken) (s₃ s' : RecvSession) : Prop :=
  t.stamp = none ∧ s₃ = t.enter p ∧ s' = t.enter p ∨
    ∃ stamp b, t.stamp = some stamp ∧ (t.enter p).goOn h k stamp t.bFlag = .ok (s₃, b) ∧ s₃.deliver h now b = .ok s'

/-- The session is ready again, and what was taken of the stream is in the map or in the queue. -/
structure Next (exact : Prop) (base : Int) (h : RecvHandle) (s s₃ s' : RecvSession) (k q e n : Nat) (todo : List Framed)
    (gs : List FrameGroup) (ps : List NetPackage) : Prop where
  ready : ∃ k' q' pExtend' e' todo' gs' ps', Ready exact base s' k' q' pExtend' e' todo' gs' ps' ∧
    (∃ taken, todo = taken ++ todo' ∧ (streamBytes taken).length + e' + q' = e + q + n) ∧
    ∃ done, gs.map FrameGroup.pkg ++ ps = done ++ (gs'.map FrameGroup.pkg ++ ps') ∧
      (exact → h.Works → s.InOrder base todo n → s'.m_recvQueue = s.m_recvQueue ++ done.filterMap NetPackage.delivered)
  spared : s.Free base h todo n → s₃.Spared

section

variable {now : Int} {p s' s₃ : RecvSession} {a : Arrival} {t : Taken} {todo' : List Framed} {gs₁ gs₀ : List FrameGroup}
  {ps₁ : List NetPackage} {g : FrameGroup} {rest : List Message} {bs : List UInt8}

theorem Goes.pass (hg : Goes h now p k t s₃ s') : RecvSession.pass h now p k t = .ok s' := by
  rw [RecvSession.pass]
  cases hg with
  | inl hg => rw [hg.1, hg.2.2]
  | inr hg =>
    obtain ⟨stamp, b, hstamp, hgo, hdeliver⟩ := hg
    rw [hstamp]
    simp only [hgo, bind, Except.bind]
    exact hdeliver

/-- Every frame of a package lies in one of the buffers. -/
theorem Taking.liesIn (hT : Taking exact base s p k pExtend a todo todo' gs t) (hk : k < 4) (hext : a.joined ≠ [] → pExtend.getD 0 < 4)
    (he : Entered exact p t gs gs₁ ps ps₁ a.msgs rest g) {g' : FrameGroup} {fr : MsgFrame} (hg' : g' ∈ gs₁) (hfr : fr ∈ g'.frames) :
    ∃ i, i < 4 ∧ fr.LiesIn base t.mem i ∧ ((∃ g ∈ gs, fr ∈ g.frames) ∨ fr ∈ t.frames) := by
  have hplace : (∃ g ∈ gs, fr ∈ g.frames) ∨ fr ∈ t.frames := by
    cases he.grown g' hg' with
    | inl hold => exact .inl ⟨g', hold, hfr⟩
    | inr hnew => exact (hnew.2 fr hfr).symm
  cases hplace with
  | inl hold =>
    obtain ⟨g₀, hg₀, hin⟩ := hold
    obtain ⟨i, hi, -, hlies⟩ := hT.free g₀ hg₀ fr hin
    exact ⟨i, hi, hlies, .inl ⟨g₀, hg₀, hin⟩⟩
  | inr hnew =>
    cases hT.brought.liesIn fr hnew with
    | inl hlies => exact ⟨k, hk, hlies, .inr hnew⟩
    | inr hlies => exact ⟨_, hext hlies.1, hlies.2, .inr hnew⟩

/-- The package of the last frame is complete when it has as many frames as its messages say. -/
theorem Entered.complete_iff (he : Entered exact p t gs gs₁ ps ps₁ a.msgs rest g) (hr : Ready exact base s k q pExtend e todo gs ps)
    (ha : s.arrival todo n = a) (hframes : t.frames = s.newFrames base todo n) (hne : a.msgs ≠ []) :
    (∃ msg ∈ (s.arrival todo n).msgs.getLast?, (s.nextFrames base todo n).length < msg.total) ↔ ¬g.Complete := by
  have hunder : s.nextFrames base todo n = g.frames := by
    rw [RecvSession.nextFrames, hr.waitingFrames, ha, ← hframes, he.frames]
  obtain ⟨gs₀, hgs⟩ := he.last
  have hle := (he.waiting.begun g (by rw [hgs]; exact List.mem_append_right _ (List.mem_singleton_self g))).length_le
  rw [ha, hunder, FrameGroup.Complete]
  refine ⟨?_, ?_⟩
  · rintro ⟨msg, hmsg, hlt⟩ hc
    rw [he.total msg hmsg, hc] at hlt
    exact lt_irrefl _ hlt
  · intro hc
    obtain ⟨msg, hmsg⟩ : ∃ msg, a.msgs.getLast? = some msg := Option.ne_none_iff_exists'.1 (by simpa using hne)
    exact ⟨msg, hmsg, by rw [he.total msg hmsg]; exact Nat.lt_of_le_of_ne hle hc⟩

/-- What is handed out is what was completed. -/
theorem Entered.queue (he : Entered exact p t gs gs₁ ps ps₁ a.msgs rest g) (hr : Ready exact base s k q pExtend e todo gs ps)
    (ha : s.arrival todo n = a) (hframes : t.frames = s.newFrames base todo n) (hne : a.msgs ≠ [])
    (horder : s.InOrder base todo n) : handed gs₁ = gs₁.filter fun g => decide g.Complete := by
  refine handed_eq he.waiting ?_
  have hiff := he.complete_iff hr ha hframes hne
  have hkeys : s.m_mapFrames.entries.map (·.1) ++ newKeys (s.arrival todo n).msgs = gs₁.map FrameGroup.key := by
    rw [hr.keys, ha, he.keys]
  obtain ⟨gs₀, hgs⟩ := he.last
  have hfull := he.waiting.full
  rw [hgs, List.dropLast_concat] at hfull
  rw [RecvSession.InOrder, hkeys] at horder
  have hkeep : gs₀.filter (fun g => decide g.Complete) = gs₀ := List.filter_eq_self.2 fun g hg => decide_eq_true (hfull g hg)
  by_cases hc : g.Complete
  · rw [if_neg (fun h => hiff.1 h hc), hgs] at horder
    rw [hgs, List.filter_append, hkeep, List.filter_singleton, decide_eq_true hc, cond_true]
    exact horder
  · rw [if_pos (hiff.2 hc), hgs, List.map_append, List.map_singleton, List.dropLast_concat] at horder
    rw [hgs, List.filter_append, hkeep, List.filter_singleton, decide_eq_false hc, cond_false, List.append_nil]
    exact horder

theorem Entered.ready {k' q' e' : Nat} {pExtend' : Option Nat} (he : Entered exact p t gs gs₁ ps ps₁ a.msgs rest g)
    (hr : Ready exact base s k q pExtend e todo gs ps) (hT : Taking exact base s p k pExtend a todo todo' gs t)
    (hext : a.joined ≠ [] → pExtend.getD 0 < 4) (ha : s.arrival todo n = a) (hframes : t.frames = s.newFrames base todo n)
    (hne : a.msgs ≠ []) (hqueue : p.m_recvQueue = s.m_recvQueue) (hl : Listening base s' k' q' pExtend' e' todo')
    (hrest : rest = todo'.map Framed.msg) (hgoes : Goes h now p k t s₃ s') (hsorts : h.Sorts)
    (hkeep : exact → (t.bFlag = true → (t.base p).firstExtend.map (· + 1) = some t.m_RecvBuf.length) →
      (∃ msg ∈ (s.arrival todo n).msgs.getLast?, (s.nextFrames base todo n).length < msg.total) →
      h.sort (s.nextFrames base todo n) = s.nextFrames base todo n)
    (hfree : ∀ g' ∈ gs₁, ¬g'.Complete → ∀ fr ∈ g'.frames, fr.m_index ≠ (k' : Int)) :
    ∃ left, Ready exact base s' k' q' pExtend' e' todo' left ps₁ ∧
      ∃ done, gs.map FrameGroup.pkg ++ ps = done ++ (left.map FrameGroup.pkg ++ ps₁) ∧
        (exact → h.Works → s.InOrder base todo n → s'.m_recvQueue = s.m_recvQueue ++ done.filterMap NetPackage.delivered) := by
  have hunder : underWay (lastFrames gs) t.frames a.msgs = s.nextFrames base todo n := by
    rw [RecvSession.nextFrames, hr.waitingFrames, ha, hframes]
  obtain ⟨left, hh⟩ := pass_handled he hne hr.sized hsorts (fun hexact hflag msg hmsg hlt => by
    rw [hunder] at hlt ⊢
    exact hkeep hexact hflag ⟨msg, ha ▸ hmsg, hlt⟩) hgoes.pass
  have hmem : s'.mem = t.mem := by
    rw [hh.mem, enter_eq]
    rfl
  have hpkgs := hh.left.pkgs_eq he.waiting
  refine ⟨left, ⟨hl, hh.waiting, hh.left.incomplete, ?_, fun q hq => ?_, fun g' hg' fr hfr => ?_⟩,
    (gs₁.filter fun g => decide g.Complete).map FrameGroup.pkg, ?_, fun hexact hworks horder => ?_⟩
  · rw [hh.left.ahead_eq he.waiting, he.rest, hrest]
  · refine hr.sized q ?_
    rw [← he.pkgs, hpkgs, List.append_assoc]
    exact List.mem_append_right _ hq
  · rcases he.waiting.split with hfull | ⟨gs₀, g₀, hgs, hfull, hc⟩
    · rw [hh.left.of_complete hfull] at hg'
      cases hg'
    · have hleft := hh.left
      rw [hgs] at hleft
      obtain ⟨frames, hone, hperm, -⟩ := hleft.of_incomplete hfull hc
      rw [hone] at hg'
      rw [List.mem_singleton.1 hg'] at hfr
      have hg₀ : g₀ ∈ gs₁ := hgs ▸ List.mem_append_right _ (List.mem_singleton_self g₀)
      have hin := hperm.subset hfr
      obtain ⟨i, hi, hlies, -⟩ := hT.liesIn hr.listening.arrived.lt hext he hg₀ hin
      refine ⟨i, hi, fun heq => hfree g₀ hg₀ hc fr hin ?_, hmem ▸ hlies⟩
      rw [hlies.index, heq]
  · rw [← he.pkgs, hpkgs, List.append_assoc]
  · have hdone := hh.queue hexact hworks
    rw [he.queue hr ha hframes hne horder, enter_eq] at hdone
    rw [hdone, List.filterMap_map, ← hqueue]
    rfl

end
