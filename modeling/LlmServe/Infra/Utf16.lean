import Mathlib.Data.List.Basic

/-!
# UTF-16

A character is one code unit or a pair of surrogates. The decoder never fails: a surrogate without
its other half becomes U+FFFD.
-/

namespace Infra.Utf16

def encodeChar (c : Char) : List Nat :=
  if c.toNat < 0x10000 then [c.toNat]
  else [0xD800 + (c.toNat - 0x10000) / 0x400, 0xDC00 + (c.toNat - 0x10000) % 0x400]

def encode (text : List Char) : List Nat := text.flatMap encodeChar

/-- A unit that stands alone. -/
def lone (n : Nat) : Char := if 0xD800 ≤ n ∧ n < 0xE000 then '\uFFFD' else Char.ofNat n

def decode : List Nat → List Char
  | [] => []
  | [n] => [lone n]
  | hi :: lo :: rest =>
    if (0xD800 ≤ hi ∧ hi < 0xDC00) ∧ 0xDC00 ≤ lo ∧ lo < 0xE000 then
      Char.ofNat (0x10000 + (hi - 0xD800) * 0x400 + (lo - 0xDC00)) :: decode rest
    else lone hi :: decode (lo :: rest)

/-! ## What was encoded comes back -/

/-- A character is no surrogate. -/
theorem toNat_bounds (c : Char) : c.toNat < 0xD800 ∨ 0xE000 ≤ c.toNat ∧ c.toNat < 0x110000 := by
  have h : c.toNat < 0xD800 ∨ 0xDFFF < c.toNat ∧ c.toNat < 0x110000 := c.valid
  omega

theorem lone_toNat (c : Char) : lone c.toNat = c := by
  have h := toNat_bounds c
  unfold lone
  rw [if_neg (by omega), Char.ofNat_toNat]

theorem decode_cons_lone {n : Nat} (h : ¬(0xD800 ≤ n ∧ n < 0xDC00)) :
    ∀ us, decode (n :: us) = lone n :: decode us
  | [] => rfl
  | _ :: _ => if_neg fun hpair => h hpair.1

theorem decode_encodeChar (c : Char) (us : List Nat) :
    decode (encodeChar c ++ us) = c :: decode us := by
  have h := toNat_bounds c
  unfold encodeChar
  by_cases hc : c.toNat < 0x10000
  · rw [if_pos hc, List.singleton_append, decode_cons_lone (by omega), lone_toNat]
  · rw [if_neg hc, List.cons_append, List.cons_append, List.nil_append, decode, if_pos (by omega)]
    have hback : 0x10000 + (0xD800 + (c.toNat - 0x10000) / 0x400 - 0xD800) * 0x400 +
        (0xDC00 + (c.toNat - 0x10000) % 0x400 - 0xDC00) = c.toNat := by
      omega
    rw [hback, Char.ofNat_toNat]

/-- **Decoding undoes encoding.** -/
theorem decode_encode : ∀ text, decode (encode text) = text
  | [] => rfl
  | c :: text => by
    have ih := decode_encode text
    unfold encode at ih ⊢
    rw [List.flatMap_cons, decode_encodeChar, ih]

end Infra.Utf16
