import Mathlib.Data.List.Basic

/-!
# Lossy UTF-8

A decoder from bytes to characters that never fails: each maximal invalid or truncated sequence
becomes one U+FFFD. It is a machine that reads byte by byte; between two bytes it is either
between characters or inside a sequence that has begun.

`decode` is not a homomorphism: a sequence cut in two gives two replacement characters.
`decode_append` says where it is one, `clean_of_getLast` how to see that from the text alone.
-/

namespace Infra.Utf8

/-- U+FFFD. -/
def replacement : Char := '\uFFFD'

/-- A sequence that has begun: the next byte must be in `low..high`, `owed` more follow it, and
`bits` is what the bytes so far give of the code point. -/
structure Begun where
  owed : Nat
  low : Nat := 0x80
  high : Nat := 0xBF
  bits : Nat
  deriving DecidableEq

/-- What a byte does between characters. -/
def start (b : Nat) : List Char × Option Begun :=
  if b < 0x80 then ([Char.ofNat b], none)
  else if b < 0xC2 then ([replacement], none)
  else if b < 0xE0 then ([], some { owed := 0, bits := b - 0xC0 })
  else if b = 0xE0 then ([], some { owed := 1, low := 0xA0, bits := 0 })
  else if b = 0xED then ([], some { owed := 1, high := 0x9F, bits := 0xD })
  else if b < 0xF0 then ([], some { owed := 1, bits := b - 0xE0 })
  else if b = 0xF0 then ([], some { owed := 2, low := 0x90, bits := 0 })
  else if b < 0xF4 then ([], some { owed := 2, bits := b - 0xF0 })
  else if b = 0xF4 then ([], some { owed := 2, high := 0x8F, bits := 4 })
  else ([replacement], none)

/-- The characters that a byte completes, and where the decoder is after it. -/
def step : Option Begun → Nat → List Char × Option Begun
  | none, b => start b
  | some p, b =>
    if p.low ≤ b ∧ b ≤ p.high then
      let bits := p.bits * 64 + (b - 0x80)
      match p.owed with
      | 0 => ([Char.ofNat bits], none)
      | n + 1 => ([], some { owed := n, bits })
    else
      -- what has begun ends here, and `b` is read afresh
      (replacement :: (start b).1, (start b).2)

def run : Option Begun → List UInt8 → List Char × Option Begun
  | s, [] => ([], s)
  | s, b :: bs =>
    ((step s b.toNat).1 ++ (run (step s b.toNat).2 bs).1, (run (step s b.toNat).2 bs).2)

/-- The end of the input inside a sequence. -/
def truncated : Option Begun → List Char
  | none => []
  | some _ => [replacement]

def decode (bs : List UInt8) : List Char :=
  (run none bs).1 ++ truncated (run none bs).2

/-- The bytes end between two characters. -/
def Clean (bs : List UInt8) : Prop := (run none bs).2 = none

instance instDecidableClean (bs : List UInt8) : Decidable (Clean bs) :=
  inferInstanceAs (Decidable (_ = _))

/-! ## Bytes one after the other -/

theorem run_append : ∀ (s : Option Begun) (xs ys : List UInt8),
    run s (xs ++ ys) = ((run s xs).1 ++ (run (run s xs).2 ys).1, (run (run s xs).2 ys).2)
  | _, [], _ => rfl
  | s, x :: xs, ys => by
    rw [List.cons_append, run, run_append (step s x.toNat).2 xs ys, run]
    simp only [List.append_assoc]

@[simp] theorem decode_nil : decode [] = [] := rfl

theorem clean_nil : Clean [] := rfl

/-- Behind a clean cut the decoder starts afresh. -/
theorem run_append_clean {xs : List UInt8} (h : Clean xs) (ys : List UInt8) :
    run none (xs ++ ys) = ((run none xs).1 ++ (run none ys).1, (run none ys).2) := by
  unfold Clean at h
  rw [run_append, h]

theorem Clean.append {xs ys : List UInt8} (h : Clean xs) : Clean (xs ++ ys) ↔ Clean ys := by
  unfold Clean
  rw [run_append_clean h]

/-- **At a clean cut the text is cut too.** -/
theorem decode_append {xs : List UInt8} (h : Clean xs) (ys : List UInt8) :
    decode (xs ++ ys) = decode xs ++ decode ys := by
  have hxs : decode xs = (run none xs).1 := by
    unfold decode
    rw [show (run none xs).2 = none from h, truncated, List.append_nil]
  rw [hxs, decode, run_append_clean h, decode, List.append_assoc]

/-! ## What the text tells about the bytes -/

/-- A text that does not end in U+FFFD leaves nothing begun. -/
theorem clean_of_getLast {bs : List UInt8} (h : (decode bs).getLast? ≠ some replacement) :
    Clean bs := by
  unfold Clean
  cases hs : (run none bs).2 with
  | none => rfl
  | some p =>
    refine absurd ?_ h
    unfold decode
    rw [hs, truncated, List.getLast?_append, List.getLast?_singleton]
    rfl

/-- Between characters a byte is a character, or starts one, or is replaced. -/
theorem start_cases (b : Nat) : b < 0x80 ∧ start b = ([Char.ofNat b], none) ∨
    start b = ([replacement], none) ∨ ∃ p, start b = ([], some p) := by
  by_cases hb : b < 0x80
  · exact .inl ⟨hb, if_pos hb⟩
  · right
    unfold start
    rw [if_neg hb]
    iterate 8
      refine iteInduction (motive := fun r => r = ([replacement], none) ∨ ∃ p, r = ([], some p))
        (fun _ => ?_) (fun _ => ?_)
      · first | exact .inl rfl | exact .inr ⟨_, rfl⟩
    exact .inl rfl

/-- A byte that leaves nothing begun has completed a character. -/
def Shows (r : List Char × Option Begun) : Prop := r.2 = none → r.1 ≠ []

theorem shows_char (c : Char) (cs : List Char) (s : Option Begun) : Shows (c :: cs, s) :=
  fun _ => List.cons_ne_nil c cs

theorem shows_begun (cs : List Char) (p : Begun) : Shows (cs, some p) := by
  intro h
  cases h

theorem shows_start (b : Nat) : Shows (start b) := by
  rcases start_cases b with ⟨-, h⟩ | h | ⟨p, h⟩
  · rw [h]
    exact shows_char _ _ _
  · rw [h]
    exact shows_char _ _ _
  · rw [h]
    exact shows_begun _ p

theorem shows_step (s : Option Begun) (b : Nat) : Shows (step s b) := by
  cases s with
  | none => exact shows_start b
  | some p =>
    unfold step
    by_cases hb : p.low ≤ b ∧ b ≤ p.high
    · simp only [hb, and_self, if_true]
      cases p.owed with
      | zero => exact shows_char _ _ _
      | succ n => exact shows_begun _ _
    · simp only [hb, if_false]
      exact shows_char _ _ _

theorem run_ne_nil : ∀ {s : Option Begun} {bs : List UInt8}, bs ≠ [] → (run s bs).2 = none →
    (run s bs).1 ≠ []
  | s, [b], _, h => by
    rw [run, run, List.append_nil]
    exact shows_step s b.toNat h
  | s, b :: c :: bs, _, h => by
    rw [run]
    have hrest := run_ne_nil (List.cons_ne_nil c bs) h
    exact fun hnil => hrest (List.append_eq_nil_iff.mp hnil).2

theorem decode_ne_nil {bs : List UInt8} (h : bs ≠ []) : decode bs ≠ [] := by
  unfold decode
  cases hs : (run none bs).2 with
  | none =>
    rw [truncated, List.append_nil]
    exact run_ne_nil h hs
  | some p => exact List.append_ne_nil_of_right_ne_nil _ (List.cons_ne_nil _ _)

/-! ## Encoded text -/

theorem toNat_ofNat {n : Nat} (h : n < 256) : (UInt8.ofNat n).toNat = n := by
  rw [UInt8.toNat_ofNat']
  exact Nat.mod_eq_of_lt h

/-- A byte that may follow, with more to come. -/
theorem run_more {n low high bits b : Nat} (hlow : low ≤ b) (hhigh : b ≤ high) (hb : b < 256)
    (bs : List UInt8) : run (some ⟨n + 1, low, high, bits⟩) (UInt8.ofNat b :: bs)
      = run (some { owed := n, bits := bits * 64 + (b - 0x80) }) bs := by
  rw [run, toNat_ofNat hb, step, if_pos ⟨hlow, hhigh⟩]
  simp only [List.nil_append]

/-- The byte that completes a character. -/
theorem run_last {low high bits b : Nat} (hlow : low ≤ b) (hhigh : b ≤ high) (hb : b < 256) :
    run (some ⟨0, low, high, bits⟩) [UInt8.ofNat b]
      = ([Char.ofNat (bits * 64 + (b - 0x80))], none) := by
  rw [run, toNat_ofNat hb, step, if_pos ⟨hlow, hhigh⟩]
  simp only [run, List.append_nil]

/-- The byte that begins a sequence. -/
theorem run_lead {b : Nat} {p : Begun} (hp : start b = ([], some p)) (hb : b < 256)
    (bs : List UInt8) : run none (UInt8.ofNat b :: bs) = run (some p) bs := by
  rw [run, toNat_ofNat hb, step, hp]
  simp only [List.nil_append]

/-- The encoding of a character, from its code point. -/
theorem encode_eq {c : Char} {v : Nat} (h : c.toNat = v) : String.utf8EncodeChar c =
    if v ≤ 0x7F then [UInt8.ofNat v]
    else if v ≤ 0x7FF then [UInt8.ofNat (v / 64 % 32 + 0xC0), UInt8.ofNat (v % 64 + 0x80)]
    else if v ≤ 0xFFFF then
      [UInt8.ofNat (v / 4096 % 16 + 0xE0), UInt8.ofNat (v / 64 % 64 + 0x80),
        UInt8.ofNat (v % 64 + 0x80)]
    else
      [UInt8.ofNat (v / 262144 % 8 + 0xF0), UInt8.ofNat (v / 4096 % 64 + 0x80),
        UInt8.ofNat (v / 64 % 64 + 0x80), UInt8.ofNat (v % 64 + 0x80)] := by
  subst h
  rfl

theorem start_three {v : Nat} (hlow : 0x800 ≤ v) (hhigh : v < 0x10000)
    (hv : v < 0xD800 ∨ 0xDFFF < v) : ∃ low high,
      start (v / 4096 % 16 + 0xE0) = ([], some ⟨1, low, high, v / 4096⟩) ∧
      low ≤ v / 64 % 64 + 0x80 ∧ v / 64 % 64 + 0x80 ≤ high := by
  have hq : v / 4096 % 16 = v / 4096 := by omega
  unfold start
  rw [if_neg (by omega), if_neg (by omega), if_neg (by omega), hq]
  by_cases h0 : v / 4096 = 0
  · refine ⟨0xA0, 0xBF, ?_, by omega, by omega⟩
    rw [if_pos (by omega), h0]
  rw [if_neg (by omega)]
  by_cases hd : v / 4096 = 0xD
  · refine ⟨0x80, 0x9F, ?_, by omega, by omega⟩
    rw [if_pos (by omega), hd]
  refine ⟨0x80, 0xBF, ?_, by omega, by omega⟩
  rw [if_neg (by omega), if_pos (by omega), Nat.add_sub_cancel]

theorem start_four {v : Nat} (hlow : 0x10000 ≤ v) (hhigh : v < 0x110000) : ∃ low high,
      start (v / 262144 % 8 + 0xF0) = ([], some ⟨2, low, high, v / 262144⟩) ∧
      low ≤ v / 4096 % 64 + 0x80 ∧ v / 4096 % 64 + 0x80 ≤ high := by
  have hq : v / 262144 % 8 = v / 262144 := by omega
  unfold start
  rw [if_neg (by omega), if_neg (by omega), if_neg (by omega), if_neg (by omega),
    if_neg (by omega), if_neg (by omega), hq]
  by_cases h0 : v / 262144 = 0
  · refine ⟨0x90, 0xBF, ?_, by omega, by omega⟩
    rw [if_pos (by omega), h0]
  rw [if_neg (by omega)]
  by_cases h4 : v / 262144 = 4
  · refine ⟨0x80, 0x8F, ?_, by omega, by omega⟩
    rw [if_neg (by omega), if_pos (by omega), h4]
  refine ⟨0x80, 0xBF, ?_, by omega, by omega⟩
  rw [if_pos (by omega), Nat.add_sub_cancel]

/-- The decoder reads a character from its encoding. -/
theorem run_encode (c : Char) : run none (String.utf8EncodeChar c) = ([c], none) := by
  have hc : Char.ofNat c.toNat = c := Char.ofNat_toNat c
  have hv : c.toNat < 0xD800 ∨ 0xDFFF < c.toNat ∧ c.toNat < 0x110000 := c.valid
  rw [encode_eq rfl]
  by_cases h1 : c.toNat ≤ 0x7f
  · rw [if_pos h1, run, toNat_ofNat (by omega), step, start, if_pos (by omega), hc]
    rfl
  by_cases h2 : c.toNat ≤ 0x7ff
  · have hlead : start (c.toNat / 64 % 32 + 0xC0) = ([], some ⟨0, 0x80, 0xBF, c.toNat / 64⟩) := by
      have hq : c.toNat / 64 % 32 = c.toNat / 64 := by omega
      unfold start
      rw [if_neg (by omega), if_neg (by omega), if_pos (by omega), hq, Nat.add_sub_cancel]
    rw [if_neg h1, if_pos h2, run_lead hlead (by omega),
      run_last (by omega) (by omega) (by omega),
      show c.toNat / 64 * 64 + (c.toNat % 64 + 0x80 - 0x80) = c.toNat by omega, hc]
  by_cases h3 : c.toNat ≤ 0xffff
  · obtain ⟨low, high, hlead, hlow, hhigh⟩ :=
      start_three (show 0x800 ≤ c.toNat by omega) (by omega) (by omega)
    rw [if_neg h1, if_neg h2, if_pos h3, run_lead hlead (by omega),
      run_more hlow hhigh (by omega), run_last (by omega) (by omega) (by omega),
      show (c.toNat / 4096 * 64 + (c.toNat / 64 % 64 + 0x80 - 0x80)) * 64
        + (c.toNat % 64 + 0x80 - 0x80) = c.toNat by omega, hc]
  · obtain ⟨low, high, hlead, hlow, hhigh⟩ :=
      start_four (show 0x10000 ≤ c.toNat by omega) (by omega)
    rw [if_neg h1, if_neg h2, if_neg h3, run_lead hlead (by omega),
      run_more hlow hhigh (by omega), run_more (by omega) (by omega) (by omega),
      run_last (by omega) (by omega) (by omega),
      show ((c.toNat / 262144 * 64 + (c.toNat / 4096 % 64 + 0x80 - 0x80)) * 64
        + (c.toNat / 64 % 64 + 0x80 - 0x80)) * 64 + (c.toNat % 64 + 0x80 - 0x80) = c.toNat
        by omega, hc]

/-- **Nothing valid is lost**: what was encoded is read back. -/
theorem decode_encode : ∀ cs : List Char, decode (cs.flatMap String.utf8EncodeChar) = cs
  | [] => rfl
  | c :: cs => by
    have hclean : Clean (String.utf8EncodeChar c) := congrArg Prod.snd (run_encode c)
    have hc : decode (String.utf8EncodeChar c) = [c] := by
      unfold decode
      rw [run_encode]
      rfl
    rw [List.flatMap_cons, decode_append hclean, hc, decode_encode cs]
    rfl

end Infra.Utf8
