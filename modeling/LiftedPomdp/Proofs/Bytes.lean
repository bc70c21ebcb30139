import Mathlib.Algebra.Group.Nat.Defs
import Mathlib.Data.List.Basic
import LiftedPomdp.Value

/-!
# Byte strings taken apart

Numbers of a fixed width and values are told from their bytes, blocks of one width
from their concatenation, and a text from the start of any bytes that go on after
it.
-/

namespace LiftedPomdp
namespace Bytes

/-! ## Numbers -/

/-- The number whose bytes are given, the least significant first. -/
def ofLittleEndian : List UInt8 → Nat
  | [] => 0
  | b :: bs => b.toNat + 256 * ofLittleEndian bs

@[simp]
theorem length_littleEndian (width n : Nat) : (littleEndian width n).length = width := by
  induction width generalizing n with
  | zero => rfl
  | succ width ih => rw [littleEndian, List.length_cons, ih]

/-- As much of a number is read back as its bytes hold. -/
theorem ofLittleEndian_littleEndian (width n : Nat) :
    ofLittleEndian (littleEndian width n) = n % 256 ^ width := by
  induction width generalizing n with
  | zero => rw [pow_zero, Nat.mod_one]; rfl
  | succ width ih =>
      have hbyte : (UInt8.ofNat (n % 256)).toNat = n % 256 :=
        UInt8.toNat_ofNat_of_lt' (Nat.mod_lt n (by decide))
      rw [littleEndian, ofLittleEndian, ih, hbyte, pow_succ', Nat.mod_mul]

/-- Numbers that fit in a width are told apart by their bytes. -/
theorem littleEndian_inj {width n n' : Nat} (hn : n < 256 ^ width) (hn' : n' < 256 ^ width) :
    littleEndian width n = littleEndian width n' ↔ n = n' := by
  constructor
  · intro h
    have hread := congrArg ofLittleEndian h
    rwa [ofLittleEndian_littleEndian, ofLittleEndian_littleEndian, Nat.mod_eq_of_lt hn,
      Nat.mod_eq_of_lt hn'] at hread
  · rintro rfl
    rfl

theorem littleEndian_uint64_inj {n n' : UInt64} :
    littleEndian 8 n.toNat = littleEndian 8 n'.toNat ↔ n = n' := by
  rw [littleEndian_inj n.toNat_lt n'.toNat_lt, UInt64.toNat_inj]

/-! ## Blocks of one width -/

/-- Blocks of one width are told from their concatenation, their number included. -/
theorem flatten_inj {α : Type} {width : Nat} (hwidth : 0 < width) {blocks blocks' : List (List α)}
    (hblocks : ∀ b ∈ blocks, b.length = width) (hblocks' : ∀ b ∈ blocks', b.length = width) :
    blocks.flatten = blocks'.flatten ↔ blocks = blocks' := by
  have hlengths : ∀ {bs : List (List α)}, (∀ b ∈ bs, b.length = width) →
      bs.map List.length = List.replicate bs.length width := by
    intro bs hbs
    rw [List.eq_replicate_iff]
    simpa using hbs
  constructor
  · intro h
    have hcount : blocks.length = blocks'.length := by
      have hlength := congrArg List.length h
      rw [List.length_flatten, List.length_flatten, hlengths hblocks, hlengths hblocks',
        List.sum_replicate_nat, List.sum_replicate_nat] at hlength
      exact Nat.eq_of_mul_eq_mul_right hwidth hlength
    apply List.eq_iff_flatten_eq.mpr
    exact ⟨h, by rw [hlengths hblocks, hlengths hblocks', hcount]⟩
  · rintro rfl
    rfl

/-! ## Texts -/

/-- A text whose bytes start with those of another text starts with that text. -/
theorem prefix_of_utf8_prefix {cs cs' : List Char}
    (h : cs.flatMap String.utf8EncodeChar <+: cs'.flatMap String.utf8EncodeChar) : cs <+: cs' := by
  induction cs generalizing cs' with
  | nil => exact List.nil_prefix
  | cons c cs ih =>
      obtain ⟨rest, hrest⟩ := h
      cases cs' with
      | nil =>
          have hlength := congrArg List.length hrest
          have hpos := c.utf8Size_pos
          simp only [List.flatMap_cons, List.flatMap_nil, List.length_append,
            String.length_utf8EncodeChar, List.length_nil] at hlength
          omega
      | cons c' cs' =>
          have hfirst : some c = some c' := by
            have hread := @List.utf8DecodeChar?_utf8Encode_cons cs' c'
            rw [List.utf8Encode, ← hrest, List.flatMap_cons, List.append_assoc,
              List.toByteArray_append] at hread
            exact ByteArray.utf8DecodeChar?_utf8EncodeChar_append.symm.trans hread
          obtain rfl := Option.some.inj hfirst
          rw [List.flatMap_cons, List.flatMap_cons, List.append_assoc, List.append_cancel_left_eq]
            at hrest
          exact List.cons_prefix_cons.mpr ⟨rfl, ih ⟨rest, hrest⟩⟩

end Bytes

/-! ## Values -/

theorem toBits_inj {x y : Float} : x.toBits = y.toBits ↔ x = y := by
  constructor
  · intro h
    obtain ⟨⟨bits, hbits⟩⟩ := x
    obtain ⟨⟨bits', hbits'⟩⟩ := y
    obtain rfl : bits = bits' := h
    rfl
  · rintro rfl
    rfl

namespace Value

@[simp]
theorem length_bytes (v : Value) : v.bytes.length = 9 := by
  cases v <;> simp [bytes, payload]

/-- Values are told apart by their bytes: the range and all bits of the content. -/
theorem bytes_inj {v v' : Value} : v.bytes = v'.bytes ↔ v = v' := by
  constructor
  · intro h
    obtain ⟨htag, hpayload⟩ := List.cons.inj h
    cases v <;> cases v'
    case bool.bool b b' =>
      cases b <;> cases b'
      case false.true | true.false => exact absurd hpayload (by decide)
      all_goals rfl
    case int.int n n' =>
      rw [payload, payload, Bytes.littleEndian_uint64_inj] at hpayload
      exact congrArg (fun u => Value.int (.ofUInt64 u)) hpayload
    case real.real x y =>
      rw [payload, payload, Bytes.littleEndian_uint64_inj, toBits_inj] at hpayload
      rw [hpayload]
    all_goals cases htag
  · rintro rfl
    rfl

/-- Tables of values are told apart by their bytes. -/
theorem flatMap_bytes_inj {vs vs' : List Value} :
    vs.flatMap bytes = vs'.flatMap bytes ↔ vs = vs' := by
  have hblocks : ∀ {ws : List Value}, ∀ b ∈ ws.map bytes, b.length = 9 := by
    intro ws b hb
    obtain ⟨v, -, rfl⟩ := List.mem_map.mp hb
    exact v.length_bytes
  rw [List.flatMap_def, List.flatMap_def, Bytes.flatten_inj (by decide) hblocks hblocks,
    List.map_inj_right fun _ _ => bytes_inj.mp]

end Value
end LiftedPomdp
