/-
Byte-addressed memory, and little-endian integers kept in it.

Every fact about a store is one of two: what it left at the addresses it
covers (`read_write_self`, `readLE_writeLE`), and that it left every other
address alone (`write_other`, and `read_write_other` for a whole slice).
-/
import Mathlib.Data.List.GetD
import Mathlib.Data.Nat.Bits
import Mathlib.Tactic.Ring

namespace Bytes

/-- Memory: a byte at every address. -/
abbrev Mem := Int → UInt8

/-- The `n` bytes from `a` on. -/
def read (m : Mem) (a : Int) (n : Nat) : List UInt8 := (List.range n).map fun i : Nat => m (a + (i : Int))

/-- `bs` stored from `a` on. -/
def write (m : Mem) (a : Int) (bs : List UInt8) : Mem :=
  fun x => if a ≤ x ∧ x < a + bs.length then bs.getD (x - a).toNat 0 else m x

/-- The number a list of bytes denotes, lowest byte first. -/
def leVal : List UInt8 → Nat
  | [] => 0
  | b :: bs => b.toNat + 256 * leVal bs

/-- The lowest `n` bytes of `v`, lowest first. -/
def leBytes : Nat → Nat → List UInt8
  | 0, _ => []
  | n + 1, v => UInt8.ofNat v :: leBytes n (v / 256)

/-- The `n`-byte integer at `a`. -/
def readLE (m : Mem) (a : Int) (n : Nat) : Nat := leVal (read m a n)

/-- `v` stored as an `n`-byte integer at `a`, its higher bytes dropped. -/
def writeLE (m : Mem) (a : Int) (n v : Nat) : Mem := write m a (leBytes n v)

@[simp] theorem length_read (m : Mem) (a : Int) (n : Nat) : (read m a n).length = n := by simp [read]

@[simp] theorem length_leBytes (n v : Nat) : (leBytes n v).length = n := by
  induction n generalizing v with
  | zero => rfl
  | succ n ih => simp [leBytes, ih]

/-! ## Reading back -/

theorem getElem_read {m : Mem} {a : Int} {n i : Nat} (h : i < (read m a n).length) :
    (read m a n)[i] = m (a + i) := by simp [read]

theorem read_congr {m m' : Mem} {a : Int} {n : Nat} (h : ∀ x, a ≤ x → x < a + n → m' x = m x) :
    read m' a n = read m a n := by
  refine List.map_congr_left fun i hi => ?_
  rw [List.mem_range] at hi
  exact h _ (by omega) (by omega)

theorem read_append (m : Mem) (a : Int) (n k : Nat) : read m a (n + k) = read m a n ++ read m (a + n) k := by
  refine List.ext_getElem (by simp) fun i h₁ h₂ => ?_
  rw [getElem_read, List.getElem_append]
  split
  · rw [getElem_read]
  · rename_i hi
    rw [length_read, Nat.not_lt] at hi
    rw [getElem_read]
    congr 1
    simp only [length_read]
    omega

theorem write_other {m : Mem} {a x : Int} {bs : List UInt8} (h : x < a ∨ a + bs.length ≤ x) :
    write m a bs x = m x := by
  unfold write
  rw [if_neg (by omega)]

theorem write_at {m : Mem} {a : Int} {bs : List UInt8} {i : Nat} (h : i < bs.length) :
    write m a bs (a + i) = bs[i] := by
  unfold write
  rw [if_pos (by omega), show (a + i - a).toNat = i by omega, List.getD_eq_getElem _ _ h]

@[simp] theorem write_nil (m : Mem) (a : Int) : write m a [] = m := by
  funext x
  rw [write_other]
  simp only [List.length_nil]
  omega

theorem read_write_self (m : Mem) (a : Int) (bs : List UInt8) : read (write m a bs) a bs.length = bs := by
  refine List.ext_getElem (by simp) fun i h₁ h₂ => ?_
  rw [getElem_read, write_at h₂]

theorem read_write_other {m : Mem} {a b : Int} {n : Nat} {bs : List UInt8}
    (h : a + n ≤ b ∨ b + bs.length ≤ a) : read (write m b bs) a n = read m a n :=
  read_congr fun _ _ _ => write_other (by omega)

theorem write_append (m : Mem) (a : Int) (bs cs : List UInt8) :
    write (write m a bs) (a + bs.length) cs = write m a (bs ++ cs) := by
  funext x
  unfold write
  rw [List.length_append]
  by_cases h₁ : a + bs.length ≤ x ∧ x < a + bs.length + cs.length
  · rw [if_pos h₁, if_pos (by omega), List.getD_append_right _ _ _ _ (by omega)]
    congr 1
    omega
  · rw [if_neg h₁]
    by_cases h₂ : a ≤ x ∧ x < a + bs.length
    · rw [if_pos h₂, if_pos (by omega), List.getD_append _ _ _ _ (by omega)]
    · rw [if_neg h₂, if_neg (by omega)]

theorem write_append_of {m : Mem} {a b : Int} {bs cs : List UInt8} (h : b = a + bs.length) :
    write (write m a bs) b cs = write m a (bs ++ cs) := h ▸ write_append m a bs cs

/-- A store inside a stored slice. -/
theorem write_inside (m : Mem) (a : Int) {bs cs : List UInt8} {i : Nat} (h : i + cs.length ≤ bs.length) :
    write (write m a bs) (a + i) cs = write m a (bs.take i ++ cs ++ bs.drop (i + cs.length)) := by
  have htake : (bs.take i).length = i := List.length_take_of_le (by omega)
  have hlen : (bs.take i ++ cs ++ bs.drop (i + cs.length)).length = bs.length := by
    simp only [List.length_append, htake, List.length_drop]
    omega
  funext x
  by_cases hx : a ≤ x ∧ x < a + bs.length
  · obtain ⟨j, rfl⟩ : ∃ j : Nat, x = a + j := ⟨(x - a).toNat, by omega⟩
    have hj : j < bs.length := by omega
    rw [write_at (hlen ▸ hj)]
    by_cases h₁ : j < i
    · rw [write_other (.inl (by omega)), write_at hj, List.getElem_append_left (by rw [List.length_append]; omega),
        List.getElem_append_left (by omega), List.getElem_take]
    by_cases h₂ : j < i + cs.length
    · obtain ⟨k, rfl⟩ : ∃ k : Nat, j = i + k := ⟨j - i, by omega⟩
      rw [Nat.cast_add, ← add_assoc, write_at (by omega),
        List.getElem_append_left (by rw [List.length_append]; omega), List.getElem_append_right (by omega)]
      congr 1
      omega
    · rw [write_other (.inr (by omega)), write_at hj, List.getElem_append_right (by rw [List.length_append]; omega),
        List.getElem_drop]
      congr 1
      rw [List.length_append]
      omega
  · rw [write_other (by omega), write_other (by omega), write_other (by rw [hlen]; omega)]

/-! ## Slices that lie in memory -/

/-- The bytes lie at an address. -/
def Lies (m : Mem) (a : Int) (bs : List UInt8) : Prop := read m a bs.length = bs

variable {m : Mem} {a b : Int} {bs cs : List UInt8}

theorem lies_write (m : Mem) (a : Int) (bs : List UInt8) : Lies (write m a bs) a bs := read_write_self m a bs

theorem lies_append : Lies m a (bs ++ cs) ↔ Lies m a bs ∧ Lies m (a + bs.length) cs := by
  rw [Lies, List.length_append, read_append]
  refine ⟨?_, ?_⟩
  · exact fun h => List.append_inj h (length_read ..)
  · intro h
    rw [h.1, h.2]

theorem Lies.take (h : Lies m a bs) (n : Nat) : Lies m a (bs.take n) := by
  rw [← List.take_append_drop n bs] at h
  exact (lies_append.1 h).1

theorem Lies.drop (h : Lies m a bs) {n : Nat} (hn : n ≤ bs.length) : Lies m (a + n) (bs.drop n) := by
  rw [← List.take_append_drop n bs] at h
  have := (lies_append.1 h).2
  rwa [List.length_take_of_le hn] at this

/-- The first bytes of a slice, read. -/
theorem Lies.read_eq (h : Lies m a bs) {n : Nat} (hn : n ≤ bs.length) : read m a n = bs.take n := by
  have := h.take n
  rwa [Lies, List.length_take_of_le hn] at this

theorem Lies.congr {m' : Mem} (h : Lies m a bs) (hm : ∀ x, a ≤ x → x < a + bs.length → m' x = m x) : Lies m' a bs :=
  (read_congr hm).trans h

theorem Lies.write_other (h : Lies m a bs) (hd : a + bs.length ≤ b ∨ b + cs.length ≤ a) : Lies (write m b cs) a bs :=
  (read_write_other hd).trans h

/-- A slice that lies there already is written. -/
theorem write_of_lies (h : Lies m a bs) : write m a bs = m := by
  funext x
  by_cases hx : a ≤ x ∧ x < a + bs.length
  · obtain ⟨i, rfl⟩ : ∃ i : Nat, x = a + i := ⟨(x - a).toNat, by omega⟩
    have hi : i < bs.length := by omega
    have hget := getElem_read (m := m) (a := a) (n := bs.length) (i := i) (by rwa [length_read])
    rw [write_at hi, ← hget]
    exact (List.getElem_of_eq h _).symm
  · exact Bytes.write_other (by omega)

/-- A slice that is written further. -/
theorem Lies.extend (h : Lies m a bs) (cs : List UInt8) : Lies (write m (a + bs.length) cs) a (bs ++ cs) :=
  lies_append.2 ⟨h.write_other (.inl le_rfl), lies_write ..⟩

/-! ## Little-endian integers -/

theorem leVal_lt (bs : List UInt8) : leVal bs < 256 ^ bs.length := by
  induction bs with
  | nil => simp [leVal]
  | cons b bs ih =>
    have hb : b.toNat < 256 := b.toNat_lt
    simp only [leVal, List.length_cons, Nat.pow_succ]
    omega

theorem leVal_leBytes (n v : Nat) : leVal (leBytes n v) = v % 256 ^ n := by
  induction n generalizing v with
  | zero => simp [leBytes, leVal, Nat.mod_one]
  | succ n ih =>
    have hb : (UInt8.ofNat v).toNat = v % 256 := UInt8.toNat_ofNat'
    rw [leBytes, leVal, ih, hb, Nat.pow_succ, Nat.mul_comm (256 ^ n) 256, Nat.mod_mul]

theorem readLE_lt (m : Mem) (a : Int) (n : Nat) : readLE m a n < 256 ^ n := by
  simpa [readLE] using leVal_lt (read m a n)

theorem readLE_writeLE (m : Mem) (a : Int) (n v : Nat) : readLE (writeLE m a n v) a n = v % 256 ^ n := by
  have h := read_write_self m a (leBytes n v)
  rw [length_leBytes] at h
  rw [readLE, writeLE, h, leVal_leBytes]

theorem readLE_congr {m m' : Mem} {a : Int} {n : Nat} (h : ∀ x, a ≤ x → x < a + n → m' x = m x) :
    readLE m' a n = readLE m a n := by rw [readLE, readLE, read_congr h]

theorem writeLE_other {m : Mem} {a x : Int} {n v : Nat} (h : x < a ∨ a + n ≤ x) :
    writeLE m a n v x = m x := write_other (by rwa [length_leBytes])

theorem readLE_write_other {m : Mem} {a b : Int} {n : Nat} {bs : List UInt8}
    (h : a + n ≤ b ∨ b + bs.length ≤ a) : readLE (write m b bs) a n = readLE m a n := by
  rw [readLE, read_write_other h, readLE]

theorem readLE_writeLE_other {m : Mem} {a b : Int} {n k v : Nat} (h : a + n ≤ b ∨ b + k ≤ a) :
    readLE (writeLE m b k v) a n = readLE m a n := readLE_write_other (by rwa [length_leBytes])

end Bytes
