/-
Rows of marks, and the bytes they are packed into.

A row tells of each of its positions whether it is marked.  In bytes eight
positions lie side by side, the first of them with the least weight.  Up to
seven bits in front of the first position may belong to no position: the row
keeps their number, so that it is packed again the way it was found.

* `Marks.toBytes` — the bytes of a row, in which bits of no position are 0;
* `Marks.ofBytes?` — the row in a list of bytes, if they hold that many marks;
* `ofBytes?_toBytes` — a row is found again in its bytes.
-/
import Transduction.Order

namespace Transduction

namespace Bits

/-- The number that bits write, the first one with the least weight. -/
def toByte (bits : List Bool) : Nat := bits.foldr (fun b n => 2 * n + b.toNat) 0

/-- The eight bits of a byte. -/
def ofByte (byte : Nat) : List Bool := (List.range 8).map byte.testBit

/-- Bits in groups of eight, one byte each; the last group may be shorter. -/
def pack : List Bool → List Nat
  | [] => []
  | b :: bits => toByte (b :: bits.take 7) :: pack (bits.drop 7)
termination_by bits => bits.length

/-- The bits of bytes in order. -/
def unpack (bytes : List Nat) : List Bool := bytes.flatMap ofByte

theorem toByte_cons (b : Bool) (bits : List Bool) :
    toByte (b :: bits) = 2 * toByte bits + b.toNat := rfl

theorem unpack_cons (byte : Nat) (bytes : List Nat) :
    unpack (byte :: bytes) = ofByte byte ++ unpack bytes := rfl

theorem toByte_lt (bits : List Bool) : toByte bits < 2 ^ bits.length := by
  induction bits with
  | nil => simp [toByte]
  | cons b bits ih =>
    have := Bool.toNat_le b
    rw [toByte_cons, List.length_cons, Nat.pow_succ]
    omega

theorem testBit_toByte (bits : List Bool) (i : Nat) :
    (toByte bits).testBit i = (bits[i]?).getD false := by
  induction bits generalizing i with
  | nil => simp [toByte]
  | cons b bits ih =>
    match i with
    | 0 =>
      have last : (2 * toByte bits + b.toNat) % 2 = b.toNat := by
        have := Bool.toNat_le b
        omega
      rw [toByte_cons, Nat.testBit_zero, last]
      cases b <;> rfl
    | i + 1 =>
      have half : (2 * toByte bits + b.toNat) / 2 = toByte bits := by
        have := Bool.toNat_le b
        omega
      rw [toByte_cons, Nat.testBit_succ, half, ih, List.getElem?_cons_succ]

theorem ofByte_toByte {bits : List Bool} (h : bits.length ≤ 8) :
    ofByte (toByte bits) = bits ++ List.replicate (8 - bits.length) false := by
  apply List.ext_getElem?
  intro i
  simp only [ofByte, List.getElem?_map, List.getElem?_append, List.getElem?_replicate]
  by_cases hi : i < bits.length
  · simp [hi, testBit_toByte, show i < 8 by omega]
  · by_cases h8 : i < 8
    · simp [hi, h8, testBit_toByte, show i - bits.length < 8 - bits.length by omega]
    · simp [hi, h8, show ¬ i - bits.length < 8 - bits.length by omega]

@[simp] theorem length_unpack (bytes : List Nat) : (unpack bytes).length = 8 * bytes.length := by
  induction bytes with
  | nil => rfl
  | cons byte bytes ih =>
    rw [unpack_cons, List.length_append, ih]
    simp only [ofByte, List.length_map, List.length_range, List.length_cons]
    omega

theorem prefix_unpack_pack (bits : List Bool) : bits <+: unpack (pack bits) := by
  fun_induction pack bits with
  | case1 => exact List.nil_prefix
  | case2 b bits ih =>
    have short : (b :: bits.take 7).length ≤ 8 := by
      rw [List.length_cons, List.length_take]
      omega
    rw [unpack_cons, ofByte_toByte short]
    by_cases h : bits.length < 7
    -- the last group: whatever follows it is no bit of the list
    · rw [List.take_of_length_le (by omega), List.append_assoc]
      exact List.prefix_append _ _
    -- a full group leaves no room, and the next one begins behind it
    · have full : 8 - (b :: bits.take 7).length = 0 := by
        rw [List.length_cons, List.length_take]
        omega
      rw [full, List.replicate_zero, List.append_nil]
      obtain ⟨room, hroom⟩ := ih
      rw [← hroom, ← List.append_assoc]
      exact ⟨room, congrArg (b :: · ++ room) (List.take_append_drop 7 bits).symm⟩

end Bits

/-- A row of marks, and the number of bits in front of it in its first byte. -/
structure Marks where
  values : Array Bool
  lead : Fin 8 := 0
deriving DecidableEq, Repr

namespace Marks

/-- The number of positions. -/
def size (m : Marks) : Nat := m.values.size

/-- Whether a position is marked; positions outside the row are not. -/
def contains (m : Marks) (q : Nat) : Bool := (m.values[q]?).getD false

/-- The marked positions in ascending order. -/
def toList (m : Marks) : List Nat := (List.range m.size).filter m.contains

/-- Some positions are marked and others are not. -/
def isMixed (m : Marks) : Bool := m.values.any id && !m.values.all id

/-- The bytes of a row. -/
def toBytes (m : Marks) : List Nat :=
  Bits.pack (List.replicate m.lead false ++ m.values.toList)

/-- The row of `count` marks behind the first `lead` bits of some bytes, unless
there are fewer bits. -/
def ofBytes? (lead : Fin 8) (count : Nat) (bytes : List Nat) : Option Marks :=
  if lead + count ≤ 8 * bytes.length then
    some { values := (((Bits.unpack bytes).drop lead).take count).toArray, lead := lead }
  else none

/-- A row is found again in its bytes. -/
theorem ofBytes?_toBytes (m : Marks) : ofBytes? m.lead m.size m.toBytes = some m := by
  obtain ⟨room, hroom⟩ :=
    Bits.prefix_unpack_pack (List.replicate m.lead false ++ m.values.toList)
  have enough : m.lead + m.size ≤ 8 * m.toBytes.length := by
    have := congrArg List.length hroom
    simp only [List.length_append, List.length_replicate, Array.length_toList,
      Bits.length_unpack] at this
    simp only [toBytes, size]
    omega
  rw [ofBytes?, if_pos enough, toBytes, ← hroom, List.append_assoc, List.drop_append]
  simp [size]

end Marks

end Transduction
