/-
The message on the wire and the package it carries (Net/DataHandle.h,
Net/NetPackage.h, XDefine.h).

A package is cut into chunks of at most 1000 bytes, and each chunk travels
behind a `MsgHead`, 24 bytes without padding and little-endian:

    [tFrames 1][nFrames 1][nVerifyLen 1][nProtoType 1][nReserved 1][nRetState 1]
    [nDataLen 2][tSrcLen 2][tDataLen 2][nFrameLen 2][nUserProto 2][ntimestamp 8]
-/
import XFramework.Lib.Bytes
import Mathlib.Data.List.Forall2

open Bytes

/-- `PERIOPOSTSIZE`, the size of a frame buffer. -/
abbrev PERIOPOSTSIZE : Nat := 4096

/-- `TRANSFRAME`, the size of a message: its head and up to 1000 bytes. -/
abbrev TRANSFRAME : Nat := 1024

structure MsgHead where
  tFrames : UInt8
  nFrames : UInt8
  nVerifyLen : UInt8
  nProtoType : UInt8
  nReserved : UInt8
  nRetState : UInt8
  nDataLen : UInt16
  tSrcLen : UInt16
  tDataLen : UInt16
  nFrameLen : UInt16
  nUserProto : UInt16
  ntimestamp : Int64
  deriving DecidableEq

namespace MsgHead

/-- The low and the high byte of an `unsigned short`. -/
def lo (n : UInt16) : UInt8 := UInt8.ofNat n.toNat

def hi (n : UInt16) : UInt8 := UInt8.ofNat (n.toNat / 256)

/-- The head as it lies in memory. -/
def bytes (h : MsgHead) : List UInt8 :=
  [h.tFrames, h.nFrames, h.nVerifyLen, h.nProtoType, h.nReserved, h.nRetState,
    lo h.nDataLen, hi h.nDataLen, lo h.tSrcLen, hi h.tSrcLen, lo h.tDataLen, hi h.tDataLen,
    lo h.nFrameLen, hi h.nFrameLen, lo h.nUserProto, hi h.nUserProto] ++
    leBytes 8 h.ntimestamp.toUInt64.toNat

@[simp] theorem length_bytes (h : MsgHead) : h.bytes.length = 24 := by
  simp [bytes]

/-- The `unsigned short` its low and its high byte make. -/
def ofLoHi (l h : UInt8) : UInt16 := .ofNat (l.toNat + 256 * h.toNat)

/-- The head that lies in 24 bytes. -/
def ofBytes (bs : List UInt8) : MsgHead where
  tFrames := bs.getD 0 0
  nFrames := bs.getD 1 0
  nVerifyLen := bs.getD 2 0
  nProtoType := bs.getD 3 0
  nReserved := bs.getD 4 0
  nRetState := bs.getD 5 0
  nDataLen := ofLoHi (bs.getD 6 0) (bs.getD 7 0)
  tSrcLen := ofLoHi (bs.getD 8 0) (bs.getD 9 0)
  tDataLen := ofLoHi (bs.getD 10 0) (bs.getD 11 0)
  nFrameLen := ofLoHi (bs.getD 12 0) (bs.getD 13 0)
  nUserProto := ofLoHi (bs.getD 14 0) (bs.getD 15 0)
  ntimestamp := (UInt64.ofNat (leVal ((bs.drop 16).take 8))).toInt64

theorem ofLoHi_lo_hi (n : UInt16) : ofLoHi (lo n) (hi n) = n := by
  have hn : n.toNat < 65536 := n.toNat_lt
  have hlo : (lo n).toNat = n.toNat % 256 := UInt8.toNat_ofNat'
  have hhi : (hi n).toNat = n.toNat / 256 % 256 := UInt8.toNat_ofNat'
  rw [ofLoHi, hlo, hhi, Nat.mod_eq_of_lt (by omega : n.toNat / 256 < 256), Nat.mod_add_div, UInt16.ofNat_toNat]

theorem ofBytes_bytes (h : MsgHead) (rest : List UInt8) : ofBytes (h.bytes ++ rest) = h := by
  have hstamp : leVal (leBytes 8 h.ntimestamp.toUInt64.toNat) = h.ntimestamp.toUInt64.toNat := by
    rw [leVal_leBytes]
    exact Nat.mod_eq_of_lt (UInt64.toNat_lt _)
  have hlast : (((h.bytes ++ rest).drop 16).take 8) = leBytes 8 h.ntimestamp.toUInt64.toNat := by
    have hlen : (leBytes 8 h.ntimestamp.toUInt64.toNat).length = 8 := length_leBytes _ _
    simp only [bytes, List.cons_append, List.nil_append, List.drop_succ_cons, List.drop_zero]
    exact List.take_left' hlen
  rw [ofBytes, hlast, hstamp, UInt64.ofNat_toNat, Int64.toInt64_toUInt64]
  simp only [bytes, List.cons_append, List.getD_cons_zero, List.getD_cons_succ, ofLoHi_lo_hi]

/-- The head at an address. -/
def load (m : Mem) (p : Int) : MsgHead := ofBytes (read m p 24)

end MsgHead

/-- A package in a queue. The length is not negative and is that of the data, when there
are any (`m_pData` may be `NULL`). -/
structure NetPackage where
  m_len : Nat
  m_nBaseProtol : UInt8
  m_nUserProtol : UInt16
  m_nVerifyLen : Int
  m_pData : Option (List UInt8)
  m_timestamp : Int64
  sized : ∀ d ∈ m_pData, d.length = m_len
  deriving DecidableEq

/-! ## What belongs on the wire -/

/-- A chunk of a package: its number and the number of chunks. -/
structure Message where
  pkg : NetPackage
  total : Nat
  index : Nat
  chunk : List UInt8

namespace NetPackage

/-- The number of chunks: one for every 1000 bytes begun, and one for an empty package. -/
def chunkCount (p : NetPackage) : Nat := max 1 ((p.m_len + 999) / 1000)

/-- The chunks of a package, in their order. -/
def messages (p : NetPackage) : List Message :=
  (List.range p.chunkCount).map fun c => ⟨p, p.chunkCount, c, ((p.m_pData.getD []).drop (1000 * c)).take 1000⟩

variable {p : NetPackage} {g : Message}

theorem length_chunk (hg : g ∈ p.messages) : g.chunk.length ≤ 1000 := by
  obtain ⟨c, -, rfl⟩ := List.mem_map.1 hg
  exact List.length_take_le _ _

theorem pkg_of_mem (hg : g ∈ p.messages) : g.pkg = p := by
  obtain ⟨c, -, rfl⟩ := List.mem_map.1 hg
  rfl

theorem total_of_mem (hg : g ∈ p.messages) : g.total = p.chunkCount ∧ g.index < p.chunkCount := by
  obtain ⟨c, hc, rfl⟩ := List.mem_map.1 hg
  exact ⟨rfl, List.mem_range.1 hc⟩

theorem messages_ne_nil (p : NetPackage) : p.messages ≠ [] := by
  simp [messages, chunkCount]

end NetPackage

/-- The head says about the chunk what it should say. -/
structure Message.Describes (h : MsgHead) (g : Message) : Prop where
  tFrames : h.tFrames.toNat = g.total
  nFrames : h.nFrames.toNat = g.index
  nDataLen : h.nDataLen.toNat = g.chunk.length
  nFrameLen : h.nFrameLen.toNat = 24 + g.chunk.length
  tSrcLen : h.tSrcLen.toNat = g.pkg.m_len
  tDataLen : h.tDataLen.toNat = g.pkg.m_len
  nProtoType : h.nProtoType = g.pkg.m_nBaseProtol
  nUserProto : h.nUserProto = g.pkg.m_nUserProtol
  nVerifyLen : (h.nVerifyLen.toNat : Int) = g.pkg.m_nVerifyLen
  ntimestamp : h.ntimestamp = g.pkg.m_timestamp

/-- `bs` is the concatenation of the messages: a head that describes the chunk, the chunk. -/
inductive Wire : List Message → List UInt8 → Prop
  | nil : Wire [] []
  | cons {g : Message} {gs : List Message} {h : MsgHead} {bs : List UInt8} (hd : Message.Describes h g)
      (ht : Wire gs bs) : Wire (g :: gs) (h.bytes ++ g.chunk ++ bs)

/-- The bytes the messages take. -/
def wireLength (gs : List Message) : Nat := (gs.map fun g => 24 + g.chunk.length).sum

namespace Wire

variable {gs gs' : List Message} {bs bs' : List UInt8} {g : Message}

theorem length_eq (hw : Wire gs bs) : bs.length = wireLength gs := by
  induction hw with
  | nil => rfl
  | cons hd ht ih =>
    simp only [wireLength, List.map_cons, List.sum_cons, List.length_append, MsgHead.length_bytes] at ih ⊢
    omega

theorem append (hw : Wire gs bs) (hw' : Wire gs' bs') : Wire (gs ++ gs') (bs ++ bs') := by
  induction hw with
  | nil => exact hw'
  | cons hd ht ih =>
    rw [List.append_assoc, List.cons_append]
    exact .cons hd ih

theorem single {h : MsgHead} (hd : Message.Describes h g) : Wire [g] (h.bytes ++ g.chunk) := by
  have := Wire.cons hd .nil
  rwa [List.append_nil] at this

/-- The messages of a prefix have the bytes of a prefix. -/
theorem split (hw : Wire (gs ++ gs') bs) : ∃ bs₁ bs₂, bs = bs₁ ++ bs₂ ∧ Wire gs bs₁ ∧ Wire gs' bs₂ := by
  induction gs generalizing bs with
  | nil => exact ⟨[], bs, rfl, .nil, hw⟩
  | cons g gs ih =>
    cases hw with
    | @cons _ _ h bs hd ht =>
      obtain ⟨bs₁, bs₂, rfl, h₁, h₂⟩ := ih ht
      exact ⟨h.bytes ++ g.chunk ++ bs₁, bs₂, by rw [List.append_assoc, List.append_assoc, List.append_assoc], .cons hd h₁, h₂⟩

/-- Every message on the wire has a head that describes it. -/
theorem describes (hw : Wire gs bs) (hg : g ∈ gs) : ∃ h, Message.Describes h g := by
  induction hw with
  | nil => simp at hg
  | cons hd ht ih =>
    cases hg with
    | head => exact ⟨_, hd⟩
    | tail _ hg => exact ih hg

end Wire
