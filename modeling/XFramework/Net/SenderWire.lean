/-
The wire format of the sender.

The messages of the admitted packages lie on the wire as they should exactly
when every package fits the fields of a head and no message before the last
one starts within 24 bytes of the end of a frame. After such a message the
offset is behind the bytes written by the part of the head in the first frame,
and the valid length of the next frame is counted from the offset: that many
bytes at the end are never sent (`run_short`). The last message may start
there when nothing follows that is measured by the offset.
-/
import XFramework.Net.PackagingRun

open Bytes Fallible

namespace PackageProxy

variable {base : Int} {n P s S : Nat} {c c' : Cursor} {gs : List Message} {g : Message}

/-! ## Where the messages lie -/

/-- Every message with the position it starts at. -/
def positions (S : Nat) : List Message → List (Nat × Message)
  | [] => []
  | g :: gs => (S, g) :: positions (S + 24 + g.chunk.length) gs

/-- The bytes the sender writes for the messages. -/
def image (S : Nat) : List Message → List UInt8
  | [] => []
  | g :: gs => (headAt (room S) g.head g.chunk.length).bytes ++ g.chunk ++ image (S + 24 + g.chunk.length) gs

/-- No message but the last starts within a head of the end of a frame. -/
def Straight (S : Nat) (gs : List Message) : Prop := ∀ x ∈ (positions S gs).dropLast, 24 ≤ room x.1

/-- The last message may do so, unless the cut is right before a length of a head that needs it
or the frame is cut at the offset after it. -/
def LastFits (complete : Prop) (x : Nat × Message) : Prop :=
  24 ≤ room x.1 ∨ (room x.1 ≠ 12 ∧ (room x.1 = 6 → x.2.chunk = []) ∧ (complete ∨ x.2.chunk = []))

/-- The package fits the fields of a head. -/
def FitsHead (p : NetPackage) : Prop := p.m_len < 65536 ∧ 0 ≤ p.m_nVerifyLen ∧ p.m_nVerifyLen < 256

instance (complete : Prop) [Decidable complete] (x : Nat × Message) : Decidable (LastFits complete x) :=
  inferInstanceAs (Decidable (_ ∨ _))

instance (S : Nat) (gs : List Message) : Decidable (Straight S gs) := inferInstanceAs (Decidable (∀ x ∈ _, _))

instance (p : NetPackage) : Decidable (FitsHead p) := inferInstanceAs (Decidable (_ ∧ _))

theorem wireLength_cons (g : Message) (gs : List Message) : wireLength (g :: gs) = 24 + g.chunk.length + wireLength gs := rfl

theorem positions_ne_nil (S : Nat) (g : Message) (gs : List Message) : positions S (g :: gs) ≠ [] := by
  simp [positions]

theorem straight_cons_cons {g' : Message} :
    Straight S (g :: g' :: gs) ↔ 24 ≤ room S ∧ Straight (S + 24 + g.chunk.length) (g' :: gs) := by
  rw [Straight, positions, List.dropLast_cons_of_ne_nil (positions_ne_nil _ _ _), List.forall_mem_cons]
  rfl

theorem straight_single : Straight S [g] := by
  simp [Straight, positions]

theorem length_image (S : Nat) (gs : List Message) : (image S gs).length = wireLength gs := by
  induction gs generalizing S with
  | nil => rfl
  | cons g gs ih =>
    rw [image, List.length_append, List.length_append, MsgHead.length_bytes, ih]
    rfl

/-! ## Heads -/

theorem uint16_ext {a b : UInt16} (hlo : MsgHead.lo a = MsgHead.lo b) (hhi : MsgHead.hi a = MsgHead.hi b) : a = b := by
  have hl := congrArg UInt8.toNat hlo
  have hh := congrArg UInt8.toNat hhi
  have ha := a.toNat_lt
  have hb := b.toNat_lt
  simp only [MsgHead.lo, MsgHead.hi, UInt8.toNat_ofNat'] at hl hh
  exact UInt16.toNat_inj.1 (by omega)

theorem leBytes_inj {k v w : Nat} (h : leBytes k v = leBytes k w) (hv : v < 256 ^ k) (hw : w < 256 ^ k) : v = w := by
  have := congrArg leVal h
  rwa [leVal_leBytes, leVal_leBytes, Nat.mod_eq_of_lt hv, Nat.mod_eq_of_lt hw] at this

/-- A head can be read off its bytes. -/
theorem bytes_injective : Function.Injective MsgHead.bytes := by
  intro h h' heq
  cases h
  cases h'
  simp only [MsgHead.bytes, List.cons_append, List.nil_append, List.cons.injEq] at heq
  obtain ⟨rfl, rfl, rfl, rfl, rfl, rfl, h₁, h₁', h₂, h₂', h₃, h₃', h₄, h₄', h₅, h₅', hstamp⟩ := heq
  have ht := leBytes_inj hstamp (UInt64.toNat_lt _) (UInt64.toNat_lt _)
  rw [uint16_ext h₁ h₁', uint16_ext h₂ h₂', uint16_ext h₃ h₃', uint16_ext h₄ h₄', uint16_ext h₅ h₅',
    Int64.toBitVec_inj.1 (congrArg UInt64.toBitVec (UInt64.toNat_inj.1 ht))]

/-- What is written is the wire format exactly when each head describes its chunk. -/
theorem wire_image_iff :
    Wire gs (image S gs) ↔ ∀ x ∈ positions S gs, Message.Describes (headAt (room x.1) x.2.head x.2.chunk.length) x.2 := by
  induction gs generalizing S with
  | nil => exact ⟨fun _ x hx => absurd hx List.not_mem_nil, fun _ => .nil⟩
  | cons g gs ih =>
    rw [image, positions, List.forall_mem_cons, ← ih]
    refine ⟨?_, ?_⟩
    · intro hw
      generalize hbs : (headAt (room S) g.head g.chunk.length).bytes ++ g.chunk ++ image (S + 24 + g.chunk.length) gs = bs at hw
      cases hw with
      | cons hd ht =>
        rw [List.append_assoc, List.append_assoc] at hbs
        obtain ⟨hhead, hrest⟩ := List.append_inj hbs (by simp)
        obtain ⟨-, htail⟩ := List.append_inj hrest rfl
        exact ⟨bytes_injective hhead ▸ hd, htail ▸ ht⟩
    · intro ⟨hd, ht⟩
      exact .cons hd ht

/-- When the head says about the chunk what it should. -/
theorem describes_iff {p : NetPackage} (hg : g ∈ p.messages) (a : Nat) :
    Message.Describes (headAt a g.head g.chunk.length) g ↔ FitsHead p ∧ a ≠ 12 ∧ (a = 6 → g.chunk = []) := by
  have hlen := NetPackage.length_chunk hg
  have hpkg := NetPackage.pkg_of_mem hg
  obtain ⟨htotal, hindex⟩ := NetPackage.total_of_mem hg
  subst hpkg
  refine ⟨?_, ?_⟩
  · intro hd
    have hsrc := hd.tSrcLen
    have hver := hd.nVerifyLen
    have hdata := hd.nDataLen
    have hframe := hd.nFrameLen
    simp only [headAt, withLengths, Message.head, frameHead, UInt16.toNat_ofNat'] at hsrc hdata hframe
    have hbyte := (headAt a g.head g.chunk.length).nVerifyLen.toNat_lt
    refine ⟨⟨by omega, by omega, by omega⟩, fun ha => ?_, fun ha => ?_⟩
    · rw [if_pos ha] at hframe
      omega
    · rw [if_pos ha, Nat.mod_eq_of_lt (by omega)] at hdata
      exact List.length_eq_zero_iff.1 (by omega)
  · rintro ⟨⟨hsrc, hver, hver'⟩, h12, h6⟩
    have hcount : g.pkg.chunkCount < 256 := by
      rw [NetPackage.chunkCount]
      omega
    refine ⟨?_, ?_, ?_, ?_, ?_, ?_, rfl, rfl, ?_, rfl⟩
    all_goals simp only [headAt, withLengths, Message.head, frameHead, UInt8.toNat_ofNat', UInt16.toNat_ofNat']
    · omega
    · omega
    · by_cases ha : a = 6
      · rw [if_pos ha, h6 ha]
        rfl
      · rw [if_neg ha]
        omega
    · rw [if_neg h12]
      omega
    · omega
    · omega
    · rw [UInt8.ofInt, UInt8.toNat_ofNat']
      omega

/-! ## The run over the messages -/

/-- One message, written in one piece where the cursor stands on the bytes it has counted. -/
theorem send_at (h : At base n c P s) (hg : ∃ p : NetPackage, g ∈ p.messages) (hs : send c g = .ok c') :
    At base n c' (P + 24 + g.chunk.length - lag P) (P + 24 + g.chunk.length) ∧
      Wrote base c c' P (headAt (room P) g.head g.chunk.length) g.chunk := by
  obtain ⟨p, hg⟩ := hg
  have hdata : (if g.pkg.m_len = 0 then none else some g.chunk).getD [] = g.chunk := by
    split_ifs with hzero
    · obtain ⟨ci, -, rfl⟩ := List.mem_map.1 hg
      simp only at hzero
      have hnil : p.m_pData.getD [] = [] := by
        cases hp : p.m_pData with
        | none => rfl
        | some data => exact List.length_eq_zero_iff.1 ((p.sized data hp).trans hzero)
      simp [hnil]
    · rfl
  have hb := build_at h (hdata.symm ▸ NetPackage.length_chunk hg) hs
  rw [hdata] at hb
  exact hb

/-- The valid bytes never exceed what has been counted, and a lag is never made up for. -/
theorem run_le (h : At base n c P s) (hgs : ∀ g ∈ gs, ∃ p : NetPackage, g ∈ p.messages) (hne : gs ≠ [])
    (hr : gs.foldlM send c = .ok c') : ∃ P' s', At base n c' P' s' ∧ P' ≤ s' ∧ s' ≤ P + wireLength gs := by
  induction gs generalizing c P s with
  | nil => exact absurd rfl hne
  | cons g gs ih =>
    obtain ⟨c₁, hs, hr⟩ := foldlM_cons_ok.1 hr
    have h₁ := (send_at h (hgs g List.mem_cons_self) hs).1
    rw [wireLength_cons]
    cases gs with
    | nil =>
      cases foldlM_nil_ok.1 hr
      exact ⟨_, _, h₁, Nat.sub_le _ _, by omega⟩
    | cons g' gs =>
      obtain ⟨P', s', h', hle, hle'⟩ := ih h₁ (fun x hx => hgs x (List.mem_cons_of_mem _ hx)) (List.cons_ne_nil _ _) hr
      exact ⟨P', s', h', hle, by omega⟩

/-- A message before the last that starts too near the end of a frame: bytes are missing. -/
theorem run_short (h : At base n c S s) (hgs : ∀ g ∈ gs, ∃ p : NetPackage, g ∈ p.messages) (hst : ¬Straight S gs)
    (hr : gs.foldlM send c = .ok c') : ∃ P' s', At base n c' P' s' ∧ P' ≤ s' ∧ s' < S + wireLength gs := by
  induction gs generalizing c S s with
  | nil => exact absurd (fun x hx => absurd hx List.not_mem_nil) hst
  | cons g gs ih =>
    obtain ⟨c₁, hs, hr⟩ := foldlM_cons_ok.1 hr
    have h₁ := (send_at h (hgs g List.mem_cons_self) hs).1
    have hgs₁ : ∀ x ∈ gs, ∃ p : NetPackage, x ∈ p.messages := fun x hx => hgs x (List.mem_cons_of_mem _ hx)
    rw [wireLength_cons]
    cases gs with
    | nil => exact absurd straight_single hst
    | cons g' gs =>
      rw [straight_cons_cons] at hst
      by_cases hroom : 24 ≤ room S
      · have hlag : lag S = 0 := by
          rw [lag]
          omega
        rw [hlag] at h₁
        obtain ⟨P', s', h', hle, hlt⟩ := ih h₁ hgs₁ (fun hst' => hst ⟨hroom, hst'⟩) hr
        exact ⟨P', s', h', hle, by omega⟩
      · have hlag : 0 < lag S ∧ lag S ≤ 24 := by
          rw [lag]
          omega
        obtain ⟨P', s', h', hle, hle'⟩ := run_le h₁ hgs₁ (List.cons_ne_nil _ _) hr
        exact ⟨P', s', h', hle, by omega⟩

/-- How far the last message sets the offset back. -/
def lastLag (S : Nat) (gs : List Message) : Nat := ((positions S gs).getLast?.map fun x => lag x.1).getD 0

/-- Otherwise the sender has written the image of the messages. -/
theorem run_straight (h : At base n c S S) (hp : c.pStart = base + S) (hgs : ∀ g ∈ gs, ∃ p : NetPackage, g ∈ p.messages)
    (hst : Straight S gs) (hr : gs.foldlM send c = .ok c') :
    At base n c' (S + wireLength gs - lastLag S gs) (S + wireLength gs) ∧
      read c'.mem (base + S) (wireLength gs) = image S gs ∧ ∀ x < base + S, c'.mem x = c.mem x := by
  induction gs generalizing c S with
  | nil =>
    cases foldlM_nil_ok.1 hr
    exact ⟨h, rfl, fun _ _ => rfl⟩
  | cons g gs ih =>
    obtain ⟨c₁, hs, hr⟩ := foldlM_cons_ok.1 hr
    obtain ⟨h₁, hwrote⟩ := send_at h (hgs g List.mem_cons_self) hs
    obtain ⟨hp₁, hmem₁⟩ := hwrote hp
    have hhead : read c₁.mem (base + S) (24 + g.chunk.length) =
        (headAt (room S) g.head g.chunk.length).bytes ++ g.chunk := by
      have := read_write_self c.mem c.pStart ((headAt (room S) g.head g.chunk.length).bytes ++ g.chunk)
      rwa [List.length_append, MsgHead.length_bytes, ← hmem₁, hp] at this
    have hbelow : ∀ x < base + S, c₁.mem x = c.mem x := by
      intro x hx
      rw [hmem₁, write_other (.inl (hp ▸ hx))]
    rw [wireLength_cons]
    cases gs with
    | nil =>
      cases foldlM_nil_ok.1 hr
      have hlag : lastLag S [g] = lag S := rfl
      rw [hlag, show wireLength [] = 0 from rfl, Nat.add_zero, ← Nat.add_assoc]
      exact ⟨h₁, by rw [image, image, List.append_nil, hhead], hbelow⟩
    | cons g' gs =>
      obtain ⟨hroom, hst⟩ := straight_cons_cons.1 hst
      have hlag : lag S = 0 := by
        rw [lag]
        omega
      rw [hlag, Nat.sub_zero] at h₁
      obtain ⟨h', hread, hsame⟩ := ih h₁ hp₁ (fun x hx => hgs x (List.mem_cons_of_mem _ hx)) hst hr
      have hlast : lastLag S (g :: g' :: gs) = lastLag (S + 24 + g.chunk.length) (g' :: gs) := by
        rw [lastLag, positions, positions, List.getLast?_cons_cons, lastLag, positions]
      refine ⟨?_, ?_, fun x hx => (hsame x (by omega)).trans (hbelow x hx)⟩
      · rw [hlast, show S + (24 + g.chunk.length + wireLength (g' :: gs)) = S + 24 + g.chunk.length + wireLength (g' :: gs) by omega]
        exact h'
      · rw [read_append, image, read_congr (m := c₁.mem) fun x _ hx => hsame x (by omega), hhead, ← hread]
        congr 2
        omega

/-! ## The valid bytes -/

theorem validBytes_at (h : At base n c P s) :
    ((c.frames.take (c.fIndex + 1)).flatMap fun f => read c.mem f.m_buf f.m_nValidLen) = read c.mem base s := by
  rw [h.frames, validBytes_framesAt _ h.inRange, Nat.add_sub_cancel' h.begun]

/-- A pass that is cut short loses what is valid beyond the offset. -/
theorem finish_at (complete : Prop) [Decidable complete] (h : At base n c P s) (hle : P ≤ s) :
    ∃ s', At base n (if complete then c else cutShort c) P s' ∧ (if complete then c else cutShort c).mem = c.mem ∧
      s' ≤ s ∧ (s' = s ↔ complete ∨ P = s ∨ c.nOffset = 0) := by
  by_cases hc : complete
  · rw [if_pos hc]
    exact ⟨s, h, rfl, le_rfl, iff_of_true rfl (.inl hc)⟩
  · rw [if_neg hc, cutShort]
    split_ifs with hoff
    · refine ⟨P, ?_, rfl, hle, by simp only [hc, false_or]; omega⟩
      rw [h.frames, resetValid_framesAt (Nat.lt_trans h.below (by omega))]
      exact at_framesAt h.inRange h.below h.offset h.offset
    · exact ⟨s, h, rfl, le_rfl, iff_of_true rfl (.inr (.inr (by omega)))⟩

/-! ## The last message -/

theorem positions_last {x : Nat × Message} (hx : x ∈ (positions S gs).getLast?) :
    x.2 ∈ gs ∧ lastLag S gs = lag x.1 ∧ S + wireLength gs = x.1 + 24 + x.2.chunk.length := by
  induction gs generalizing S with
  | nil => cases hx
  | cons g gs ih =>
    cases gs with
    | nil =>
      cases hx
      exact ⟨List.mem_cons_self, rfl, (Nat.add_assoc S 24 g.chunk.length).symm⟩
    | cons g' gs =>
      rw [positions, positions, List.getLast?_cons_cons, ← positions] at hx
      obtain ⟨hmem, hlag, hend⟩ := ih hx
      refine ⟨List.mem_cons_of_mem _ hmem, ?_, ?_⟩
      · rw [← hlag, lastLag, positions, positions, List.getLast?_cons_cons, lastLag, positions]
      · rw [wireLength_cons]
        omega

/-- Behind a last message whose head is cut, the offset counts the data alone. -/
theorem offset_last {x : Nat × Message} (h : At base n c (S + wireLength gs - lastLag S gs) s)
    (hx : x ∈ (positions S gs).getLast?) (hroom : room x.1 < 24) (hlen : x.2.chunk.length ≤ 1000) :
    c.nOffset = x.2.chunk.length := by
  obtain ⟨-, hlag, hend⟩ := positions_last hx
  have hoff := h.offset
  have hlt := h.below
  rw [hend, hlag, lag] at hoff
  rw [room] at hoff hroom
  omega

theorem positions_mem {x : Nat × Message} (hx : x ∈ positions S gs) : x.2 ∈ gs := by
  induction gs generalizing S with
  | nil => cases hx
  | cons g gs ih =>
    cases hx with
    | head => exact List.mem_cons_self
    | tail _ hx => exact List.mem_cons_of_mem _ (ih hx)

theorem exists_position (hg : g ∈ gs) : ∃ x ∈ positions S gs, x.2 = g := by
  induction gs generalizing S with
  | nil => cases hg
  | cons g' gs ih =>
    cases hg with
    | head => exact ⟨_, List.mem_cons_self, rfl⟩
    | tail _ hg =>
      obtain ⟨x, hx, hxg⟩ := ih hg
      exact ⟨x, List.mem_cons_of_mem _ hx, hxg⟩

/-- When no other message is cut, only the last can have its lengths patched amiss. -/
theorem patched_iff (hst : Straight S gs) :
    (∀ x ∈ positions S gs, room x.1 ≠ 12 ∧ (room x.1 = 6 → x.2.chunk = [])) ↔
      ∀ x ∈ (positions S gs).getLast?, LastFits True x := by
  refine ⟨?_, ?_⟩
  · intro h x hx
    obtain ⟨h12, h6⟩ := h x (List.mem_of_getLast? hx)
    exact .inr ⟨h12, h6, .inl trivial⟩
  · intro h x hx
    have hne : positions S gs ≠ [] := List.ne_nil_of_mem hx
    rw [← List.dropLast_append_getLast hne, List.mem_append, List.mem_singleton] at hx
    rcases hx with hx | rfl
    · have := hst x hx
      exact ⟨by omega, fun h6 => by omega⟩
    · rcases h ((positions S gs).getLast hne) (by rw [List.getLast?_eq_getLast_of_ne_nil hne]; rfl) with hroom | ⟨h12, h6, -⟩
      · exact ⟨by omega, fun h6 => by omega⟩
      · exact ⟨h12, h6⟩

/-- The last message fits when it does in a complete pass and nothing of it is lost. -/
theorem lastFits_iff (complete : Prop) (h : At base n c (S + wireLength gs - lastLag S gs) s)
    (hgs : ∀ g ∈ gs, ∃ p : NetPackage, g ∈ p.messages) :
    (∀ x ∈ (positions S gs).getLast?, LastFits complete x) ↔
      (∀ x ∈ (positions S gs).getLast?, LastFits True x) ∧
        (complete ∨ S + wireLength gs - lastLag S gs = S + wireLength gs ∨ c.nOffset = 0) := by
  cases hl : (positions S gs).getLast? with
  | none =>
    have hlag : lastLag S gs = 0 := by
      rw [lastLag, hl]
      rfl
    exact iff_of_true (fun x hx => by cases hx) ⟨fun x hx => (by cases hx), .inr (.inl (by omega))⟩
  | some x =>
    obtain ⟨hmem, hlag, hend⟩ := positions_last (show x ∈ (positions S gs).getLast? from hl)
    obtain ⟨p, hp⟩ := hgs x.2 hmem
    have hoff := offset_last h hl
    have hlen := NetPackage.length_chunk hp
    have hnil : x.2.chunk = [] ↔ x.2.chunk.length = 0 := List.length_eq_zero_iff.symm
    simp only [Option.mem_some_iff, forall_eq', LastFits, hnil, lag] at hlag hoff ⊢
    by_cases hc : complete
    · simp [hc]
    · by_cases hroom : 24 ≤ room x.1
      · simp only [hroom, true_or, true_and, true_iff]
        exact .inr (.inl (by omega))
      · have hoff := hoff (by omega) hlen
        simp only [hc, hroom, false_or, true_or, and_true]
        omega

/-- What the queue must be for `n` frames. -/
structure Sendable (n : Nat) (theQueue : List NetPackage) : Prop where
  fits : ∀ p ∈ admitted (4096 * n) theQueue 0 0, FitsHead p
  straight : Straight 0 ((admitted (4096 * n) theQueue 0 0).flatMap NetPackage.messages)
  last : ∀ x ∈ (positions 0 ((admitted (4096 * n) theQueue 0 0).flatMap NetPackage.messages)).getLast?,
    LastFits ((admitted (4096 * n) theQueue 0 0).length = theQueue.length) x

/-- The bytes of the image are the wire format of the packages. -/
theorem wire_admitted_iff {ps : List NetPackage} (hst : Straight 0 (ps.flatMap NetPackage.messages)) :
    Wire (ps.flatMap NetPackage.messages) (image 0 (ps.flatMap NetPackage.messages)) ↔
      (∀ p ∈ ps, FitsHead p) ∧ ∀ x ∈ (positions 0 (ps.flatMap NetPackage.messages)).getLast?, LastFits True x := by
  have hmem : ∀ g ∈ ps.flatMap NetPackage.messages, g.pkg ∈ ps ∧ g ∈ g.pkg.messages := by
    intro g hg
    obtain ⟨p, hp, hg⟩ := List.mem_flatMap.1 hg
    rw [NetPackage.pkg_of_mem hg]
    exact ⟨hp, hg⟩
  rw [wire_image_iff, ← patched_iff hst]
  refine ⟨?_, ?_⟩
  · intro h
    refine ⟨fun p hp => ?_, fun x hx => ?_⟩
    · obtain ⟨g, hg⟩ := List.exists_mem_of_ne_nil _ p.messages_ne_nil
      obtain ⟨x, hx, rfl⟩ := exists_position (S := 0) (List.mem_flatMap.2 ⟨p, hp, hg⟩)
      exact ((describes_iff hg _).1 (h x hx)).1
    · exact ((describes_iff (hmem _ (positions_mem hx)).2 _).1 (h x hx)).2
  · intro ⟨hfits, hpatch⟩ x hx
    obtain ⟨hp, hg⟩ := hmem _ (positions_mem hx)
    exact (describes_iff hg _).2 ⟨hfits _ hp, hpatch x hx⟩

/-- The packages that went out lie on the wire as they should exactly when the queue is sendable. -/
theorem packaging_wire_iff {fuel : Nat} {m : Mem} {theQueue : List NetPackage} {r : Packed} (hn : 0 < n)
    (hr : packaging fuel .identity m (sendFrames base n) theQueue = .ok r) :
    Wire ((theQueue.take r.count).flatMap NetPackage.messages) r.validBytes ↔ Sendable n theQueue := by
  obtain ⟨c₁, hrun, hcount, c₂, hc₂, hmem, hframes, hused⟩ := packaging_run hn hr
  have hat : At base n ⟨m, framesAt base n 0 0, base, 0, 0⟩ 0 0 := at_framesAt hn (by omega) rfl rfl
  have hgs : ∀ g ∈ (admitted (4096 * n) theQueue 0 0).flatMap NetPackage.messages, ∃ p : NetPackage, g ∈ p.messages :=
    fun g hg => (List.mem_flatMap.1 hg).imp fun p hp => hp.2
  rw [hcount, take_admitted, Packed.validBytes, hmem, hframes, hused]
  by_cases hst : Straight 0 ((admitted (4096 * n) theQueue 0 0).flatMap NetPackage.messages)
  · obtain ⟨hat₁, hread, -⟩ := run_straight hat (add_zero base).symm hgs hst hrun
    obtain ⟨s, hat₂, hmem₂, -, hs⟩ :=
      finish_at ((admitted (4096 * n) theQueue 0 0).length = theQueue.length) hat₁ (Nat.sub_le _ _)
    have hlast := lastFits_iff ((admitted (4096 * n) theQueue 0 0).length = theQueue.length) hat₁ hgs
    rw [← hc₂] at hat₂ hmem₂
    rw [Nat.cast_zero, add_zero] at hread
    rw [validBytes_at hat₂, hmem₂]
    refine ⟨?_, ?_⟩
    · intro hw
      have hlen := hw.length_eq
      rw [length_read] at hlen
      rw [hlen, hread] at hw
      obtain ⟨hfits, hlast'⟩ := (wire_admitted_iff hst).1 hw
      exact ⟨hfits, hst, hlast.2 ⟨hlast', hs.1 (by rw [hlen, Nat.zero_add])⟩⟩
    · intro ⟨hfits, _, hlast'⟩
      obtain ⟨hlast', hfull⟩ := hlast.1 hlast'
      rw [hs.2 hfull, Nat.zero_add, hread]
      exact (wire_admitted_iff hst).2 ⟨hfits, hlast'⟩
  · obtain ⟨P, s, hat₁, hle, hlt⟩ := run_short hat hgs hst hrun
    obtain ⟨s', hat₂, -, hle', -⟩ :=
      finish_at ((admitted (4096 * n) theQueue 0 0).length = theQueue.length) hat₁ hle
    rw [← hc₂] at hat₂
    rw [validBytes_at hat₂]
    refine iff_of_false (fun hw => ?_) fun h => hst h.straight
    have hlen := hw.length_eq
    rw [length_read] at hlen
    omega

/-- A package of zeros. -/
def zeros (len : Nat) : NetPackage where
  m_len := len
  m_nBaseProtol := 0
  m_nUserProtol := 0
  m_nVerifyLen := 0
  m_pData := some (List.replicate len 0)
  m_timestamp := 0
  sized := by simp

theorem packaging_wire_zeros : ∃ r, packaging 1 .identity (fun _ => 0) (sendFrames 0 2) [zeros 3500, zeros 700] = .ok r ∧
    Wire (([zeros 3500, zeros 700].take r.count).flatMap NetPackage.messages) r.validBytes := by
  cases hr : packaging 1 .identity (fun _ => 0) (sendFrames 0 2) [zeros 3500, zeros 700] with
  | error e =>
    have hok : (packaging 1 .identity (fun _ => 0) (sendFrames 0 2) [zeros 3500, zeros 700]).toBool = true := by decide +kernel
    rw [hr] at hok
    cases hok
  | ok r =>
    exact ⟨r, rfl, (packaging_wire_iff (by decide) hr).2
      ⟨by decide +kernel, by decide +kernel, by decide +kernel⟩⟩

/-- A head of which 20 bytes are in the first frame, and a message behind it: four bytes are lost. -/
theorem packaging_wire_cut : ∃ r, packaging 1 .identity (fun _ => 0) (sendFrames 0 2)
      [zeros 1000, zeros 1000, zeros 1000, zeros 980, zeros 1, zeros 1] = .ok r ∧
    ¬Wire (([zeros 1000, zeros 1000, zeros 1000, zeros 980, zeros 1, zeros 1].take r.count).flatMap NetPackage.messages)
      r.validBytes := by
  have hrun : (packaging 1 .identity (fun _ => 0) (sendFrames 0 2)
      [zeros 1000, zeros 1000, zeros 1000, zeros 980, zeros 1, zeros 1]).map
        (fun r => (r.count, (r.frames.take r.nFrameCount).map MsgFrame.m_nValidLen)) = .ok (6, [4096, 26]) := by
    decide +kernel
  cases hr : packaging 1 .identity (fun _ => 0) (sendFrames 0 2)
      [zeros 1000, zeros 1000, zeros 1000, zeros 980, zeros 1, zeros 1] with
  | error e =>
    rw [hr] at hrun
    cases hrun
  | ok r =>
    rw [hr] at hrun
    obtain ⟨hcount, hvalid⟩ := Prod.mk.inj (Except.ok.inj hrun)
    refine ⟨r, rfl, fun hw => ?_⟩
    have hlen := hw.length_eq
    rw [Packed.validBytes, List.length_flatMap, hcount] at hlen
    simp only [length_read, hvalid] at hlen
    exact absurd hlen (by decide +kernel)

end PackageProxy
