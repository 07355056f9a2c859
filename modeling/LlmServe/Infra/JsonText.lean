import LlmServe.Infra.Reader
import LlmServe.Infra.Utf16

/-!
# JSON texts

A reader for JSON, and what it makes of what a writer wrote: one rule for each kind of value, from
the parts to the whole. Strings are read as UTF-16, where an escape is one code unit. Arrays and
objects may be nested as deep as `value` is told.

The text of an object ends with its own brace, so nothing shorter is a value (`parse_cut`).
-/

namespace Infra.JsonText

open Reader

inductive Value where
  | null
  | bool (b : Bool)
  | int (i : Int)
  /-- A number with a fraction or an exponent, as it stands in the text. -/
  | decimal (literal : List Char)
  | str (text : List Char)
  | arr (items : List Value)
  | obj (members : List (List Char × Value))

/-! ## The reader -/

def isSpace (c : Char) : Bool := c = ' ' || c = '\t' || c = '\n' || c = '\r'

def skip : Reader Char Unit := (fun _ => ()) <$> span isSpace

def symbol (c : Char) : Reader Char Unit := do
  let x ← any
  if x = c then pure () else fail

def literal : List Char → Reader Char Unit
  | [] => pure ()
  | c :: cs => do
    symbol c
    literal cs

/-! ### Numbers -/

def digits : Reader Char (List Char) := do
  let ds ← span Char.isDigit
  if ds = [] then fail else pure ds

def fraction : Reader Char (List Char) :=
  ifNext (· = '.') (do
    let dot ← any
    let ds ← digits
    pure (dot :: ds)) (pure [])

def exponent : Reader Char (List Char) :=
  ifNext (fun c => c = 'e' || c = 'E') (do
    let e ← any
    let sign ← ifNext (fun c => c = '+' || c = '-') ((fun s => [s]) <$> any) (pure [])
    let ds ← digits
    pure (e :: sign ++ ds)) (pure [])

/-- The digits of the integer part, the first of which is `d`. -/
def whole (d : Char) : Reader Char (List Char) :=
  if d = '0' then pure [d]
  else if d.isDigit then (fun ds => d :: ds) <$> span Char.isDigit
  else fail

/-- What follows the sign; `d` is the first digit. -/
def unsigned (negative : Bool) (d : Char) : Reader Char Value := do
  let ds ← whole d
  let frac ← fraction
  let exp ← exponent
  let n : Int := (Nat.ofDigitChars 10 ds 0 : Nat)
  pure (if frac ++ exp = [] then .int (if negative then -n else n)
    else .decimal ((if negative then ['-'] else []) ++ ds ++ frac ++ exp))

def number (c : Char) : Reader Char Value :=
  if c = '-' then do
    let d ← any
    unsigned true d
  else unsigned false c

/-! ### Strings -/

def hexValue (c : Char) : Option Nat :=
  if '0' ≤ c ∧ c ≤ '9' then some (c.toNat - '0'.toNat)
  else if 'a' ≤ c ∧ c ≤ 'f' then some (c.toNat - 'a'.toNat + 10)
  else if 'A' ≤ c ∧ c ≤ 'F' then some (c.toNat - 'A'.toNat + 10)
  else none

def hexDigit : Reader Char Nat := do
  let c ← any
  match hexValue c with
  | some n => pure n
  | none => fail

def hex4 : Reader Char Nat := do
  let a ← hexDigit
  let b ← hexDigit
  let c ← hexDigit
  let d ← hexDigit
  pure (((a * 16 + b) * 16 + c) * 16 + d)

def shortEscape (c : Char) : Option Char :=
  if c = '"' ∨ c = '\\' ∨ c = '/' then some c
  else if c = 'b' then some '\x08'
  else if c = 'f' then some '\x0c'
  else if c = 'n' then some '\n'
  else if c = 'r' then some '\r'
  else if c = 't' then some '\t'
  else none

/-- The code units behind a backslash. -/
def escape : Reader Char (List Nat) := do
  let c ← any
  if c = 'u' then (fun n => [n]) <$> hex4
  else
    match shortEscape c with
    | some c => pure (Utf16.encodeChar c)
    | none => fail

/-- The code units that come next in a string, unless it ends. -/
def units : Reader Char (Option (List Nat)) := do
  let c ← any
  if c = '"' then pure none
  else if c = '\\' then some <$> escape
  else if c.toNat < 0x20 then fail
  else pure (some (Utf16.encodeChar c))

/-- A string behind its opening quote. -/
def string : Reader Char (List Char) := (fun us => Utf16.decode us.flatten) <$> Reader.loop units

/-! ### Arrays and objects -/

section

variable {β : Type} (close : Char) (p : Reader Char β)

/-- Behind an element: the next one, unless the list ends. -/
def next : Reader Char (Option β) := do
  skip
  let c ← any
  if c = close then pure none
  else if c = ',' then do
    skip
    some <$> p
  else fail

/-- The elements of a list behind its opening bracket. -/
def list : Reader Char (List β) := do
  skip
  ifNext (· = close) ((fun _ => []) <$> any) (do
    let x ← p
    (fun xs => x :: xs) <$> Reader.loop (next close p))

end

def member (v : Reader Char Value) : Reader Char (List Char × Value) := do
  symbol '"'
  let key ← string
  skip
  symbol ':'
  skip
  (fun x => (key, x)) <$> v

def scalar (c : Char) : Reader Char Value :=
  if c = 'n' then (fun _ => .null) <$> literal "ull".toList
  else if c = 't' then (fun _ => .bool true) <$> literal "rue".toList
  else if c = 'f' then (fun _ => .bool false) <$> literal "alse".toList
  else if c = '"' then .str <$> string
  else number c

/-- A value with at most `depth` brackets around its parts. -/
def value : (depth : Nat) → Reader Char Value
  | 0 => any >>= scalar
  | depth + 1 => do
    let c ← any
    if c = '[' then .arr <$> list ']' (value depth)
    else if c = '\x7b' then .obj <$> list '\x7d' (member (value depth))
    else scalar c

/-- A text that is one value. -/
def parse (depth : Nat) (text : List Char) : Option Value :=
  match (skip >>= fun _ => value depth).run text with
  | some (v, rest) => if rest.all isSpace then some v else none
  | none => none

/-! ## Scalars are read as written -/

/-- What may stand behind a number. -/
def Stops (rest : List Char) : Prop :=
  ∀ c ∈ rest.head?, (c.isDigit || c = '.' || c = 'e' || c = 'E') = false

theorem stops_cons {c : Char} (h : (c.isDigit || c = '.' || c = 'e' || c = 'E') = false)
    (rest : List Char) : Stops (c :: rest) := by
  intro x hx
  cases hx
  exact h

/-- In front of what stops a number there is no fraction and no exponent. -/
theorem Stops.run {rest : List Char} (h : Stops rest) :
    fraction.run rest = some ([], rest) ∧ exponent.run rest = some ([], rest) := by
  cases rest with
  | nil => exact ⟨rfl, rfl⟩
  | cons c rest =>
    have hc := h c rfl
    simp only [Bool.or_eq_false_iff] at hc
    constructor
    · simp [fraction, hc.1.1.2]
    · simp [exponent, hc.1.2, hc.2]

theorem Stops.not_digit {rest : List Char} (h : Stops rest) :
    ∀ c ∈ rest.head?, c.isDigit = false := by
  intro c hc
  have := h c hc
  simp only [Bool.or_eq_false_iff] at this
  exact this.1.1.1

/-- No leading zero but that of `0`. -/
theorem toDigits_head : ∀ {n : Nat}, 0 < n → ∃ d ds, Nat.toDigits 10 n = d :: ds ∧ d ≠ '0' := by
  intro n
  induction n using Nat.strong_induction_on with
  | _ n ih =>
    intro hn
    by_cases hlt : n < 10
    · have hdigit : ∀ k < 10, 0 < k → Nat.digitChar k ≠ '0' := by decide
      exact ⟨_, [], Nat.toDigits_of_lt_base hlt, hdigit n hlt hn⟩
    · obtain ⟨d, ds, hd, hne⟩ := ih (n / 10) (by omega) (by omega)
      rw [Nat.toDigits_of_base_le (by decide) (by omega), hd]
      exact ⟨d, _, rfl, hne⟩

/-- A number begins with a digit. -/
theorem toDigits_cons (n : Nat) : ∃ d ds, Nat.toDigits 10 n = d :: ds ∧ d.isDigit = true := by
  obtain ⟨d, ds, hds⟩ := List.exists_cons_of_ne_nil (Nat.toDigits_ne_nil (n := n) (b := 10))
  have hmem : d ∈ Nat.toDigits 10 n := hds ▸ List.mem_cons_self
  exact ⟨d, ds, hds, Nat.isDigit_of_mem_toDigits (by decide) (by decide) hmem⟩

theorem reads_whole {n : Nat} {d : Char} {ds : List Char} (h : Nat.toDigits 10 n = d :: ds) :
    Reads (whole d) Stops ds (d :: ds) := by
  have hdigits : ∀ c ∈ d :: ds, c.isDigit = true := by
    intro c hc
    exact Nat.isDigit_of_mem_toDigits (by decide) (by decide) (h ▸ hc)
  unfold whole
  rcases Nat.eq_zero_or_pos n with rfl | hn
  · rw [Nat.toDigits_zero] at h
    cases h
    exact Reads.pure _
  · obtain ⟨d', ds', hd, hne⟩ := toDigits_head hn
    cases hd.symm.trans h
    rw [if_neg hne, if_pos (hdigits _ List.mem_cons_self)]
    exact (reads_span (fun c hc => hdigits c (List.mem_cons_of_mem _ hc))
      fun rest => Stops.not_digit).map _

theorem reads_unsigned (negative : Bool) {n : Nat} {d : Char} {ds : List Char}
    (h : Nat.toDigits 10 n = d :: ds) :
    Reads (unsigned negative d) Stops ds (.int (if negative then -(n : Int) else n)) := by
  intro rest hrest
  have hn : Nat.ofDigitChars 10 (d :: ds) 0 = n := by
    rw [← h, Nat.ofDigitChars_ten_toDigits]
  simp [unsigned, reads_whole h rest hrest, hrest.run.1, hrest.run.2, hn]

theorem digit_ne {c d : Char} (hd : d.isDigit = true) (hc : c.isDigit = false) : d ≠ c := by
  rintro rfl
  exact absurd (hc.symm.trans hd) (by decide)

section

variable {ok : List Char → Prop} {w : List Char} {v : Value} {c : Char} {depth : Nat}

theorem reads_scalar (h : Reads (scalar c) ok w v) (harr : c ≠ '[') (hobj : c ≠ '\x7b') :
    Reads (value depth) ok (c :: w) v := by
  intro rest hrest
  have hrun := h rest hrest
  cases depth with
  | zero => simpa [value] using hrun
  | succ depth => simpa [value, harr, hobj] using hrun

theorem reads_null : Reads (value depth) ok "null".toList .null :=
  reads_scalar (fun _ _ => rfl) (by decide) (by decide)

theorem reads_bool (b : Bool) :
    Reads (value depth) ok (if b then "true" else "false").toList (.bool b) := by
  cases b with
  | false => exact reads_scalar (fun _ _ => rfl) (by decide) (by decide)
  | true => exact reads_scalar (fun _ _ => rfl) (by decide) (by decide)

theorem reads_nat (n : Nat) : Reads (value depth) Stops (Nat.toDigits 10 n) (.int n) := by
  obtain ⟨d, ds, hds, hd⟩ := toDigits_cons n
  have hscalar : scalar d = unsigned false d := by
    unfold scalar number
    rw [if_neg (digit_ne hd (by decide)), if_neg (digit_ne hd (by decide)),
      if_neg (digit_ne hd (by decide)), if_neg (digit_ne hd (by decide)),
      if_neg (digit_ne hd (by decide))]
  rw [hds]
  refine reads_scalar ?_ (digit_ne hd (by decide)) (digit_ne hd (by decide))
  rw [hscalar]
  exact reads_unsigned false hds

theorem reads_neg (n : Nat) :
    Reads (value depth) Stops ('-' :: Nat.toDigits 10 n) (.int (-n)) := by
  obtain ⟨d, ds, hds, -⟩ := toDigits_cons n
  rw [hds]
  refine reads_scalar ?_ (by decide) (by decide)
  have hany : Reads any (fun _ => True) [d] d := reads_any d
  exact hany.bind (fun _ _ => trivial) (reads_unsigned true hds)

end

/-! ## Strings are read as written -/

/-- `w` is a way to write the code units `us` in a string. -/
def Spells (w : List Char) (us : List Nat) : Prop :=
  ∃ items : List (List Char × List Nat),
    (∀ i ∈ items, i.1 ≠ [] ∧ Reads units (fun _ => True) i.1 (some i.2)) ∧
    items.flatMap Prod.fst = w ∧ (items.map Prod.snd).flatten = us

theorem spells_nil : Spells [] [] := ⟨[], List.forall_mem_nil _, rfl, rfl⟩

theorem Spells.append {w w' : List Char} {us us' : List Nat} (h : Spells w us)
    (h' : Spells w' us') : Spells (w ++ w') (us ++ us') := by
  obtain ⟨items, hitems, rfl, rfl⟩ := h
  obtain ⟨items', hitems', rfl, rfl⟩ := h'
  refine ⟨items ++ items', ?_, by simp, by simp⟩
  intro i hi
  rcases List.mem_append.mp hi with hi | hi
  · exact hitems i hi
  · exact hitems' i hi

theorem spells_one {w : List Char} {us : List Nat} (hne : w ≠ [])
    (h : ∀ rest, units.run (w ++ rest) = some (some us, rest)) : Spells w us := by
  refine ⟨[(w, us)], ?_, by simp, by simp⟩
  intro i hi
  obtain rfl := List.mem_singleton.mp hi
  exact ⟨hne, fun rest _ => h rest⟩

/-- A character that stands for itself. -/
theorem spells_self {c : Char} (hquote : c ≠ '"') (hback : c ≠ '\\') (hprint : 0x20 ≤ c.toNat) :
    Spells [c] (Utf16.encodeChar c) := by
  refine spells_one (List.cons_ne_nil _ _) fun rest => ?_
  simp [units, hquote, hback, Nat.not_lt.mpr hprint]

theorem spells_short {c x : Char} (hx : x ≠ 'u') (h : shortEscape x = some c) :
    Spells ['\\', x] (Utf16.encodeChar c) := by
  refine spells_one (List.cons_ne_nil _ _) fun rest => ?_
  simp [units, escape, hx, h]

/-- Four hexadecimal digits. -/
theorem spells_unit {a b c d : Char} {i j k l : Nat} (ha : hexValue a = some i)
    (hb : hexValue b = some j) (hc : hexValue c = some k) (hd : hexValue d = some l) :
    Spells ['\\', 'u', a, b, c, d] [((i * 16 + j) * 16 + k) * 16 + l] := by
  refine spells_one (List.cons_ne_nil _ _) fun rest => ?_
  simp [units, escape, hex4, hexDigit, ha, hb, hc, hd]

theorem spells_flatMap {escape : Char → List Char}
    (h : ∀ c, Spells (escape c) (Utf16.encodeChar c)) :
    ∀ text : List Char, Spells (text.flatMap escape) (Utf16.encode text)
  | [] => spells_nil
  | c :: text => (h c).append (spells_flatMap h text)

/-- A text of characters that stand for themselves. -/
theorem spells_plain : ∀ {text : List Char},
    (∀ c ∈ text, c ≠ '"' ∧ c ≠ '\\' ∧ 0x20 ≤ c.toNat) → Spells text (Utf16.encode text)
  | [], _ => spells_nil
  | c :: text, h => by
    obtain ⟨hquote, hback, hprint⟩ := h c List.mem_cons_self
    exact (spells_self hquote hback hprint).append
      (spells_plain fun x hx => h x (List.mem_cons_of_mem c hx))

theorem Spells.string {w text : List Char} {ok : List Char → Prop}
    (h : Spells w (Utf16.encode text)) : Reads string ok (w ++ ['"']) text := by
  obtain ⟨items, hitems, rfl, hus⟩ := h
  have hclose : Reads units ok ['"'] none := fun _ _ => rfl
  have hloop : Reads (Reader.loop units) ok (items.flatMap Prod.fst ++ ['"'])
      (items.map Prod.snd) := by
    refine @reads_loop _ _ ok (fun _ => True) _ _ hclose (fun _ _ => trivial) _ fun i hi => ?_
    obtain ⟨hne, hi⟩ := hitems i hi
    exact ⟨hne, fun _ => trivial, hi⟩
  have hread := hloop.map fun us => Utf16.decode us.flatten
  rwa [hus, Utf16.decode_encode] at hread

theorem Spells.value {w text : List Char} {ok : List Char → Prop} {depth : Nat}
    (h : Spells w (Utf16.encode text)) :
    Reads (value depth) ok ('"' :: (w ++ ['"'])) (.str text) :=
  reads_scalar (h.string.map _) (by decide) (by decide)

/-! ## Arrays and objects are read as written -/

theorem run_skip {c : Char} (h : isSpace c = false) (rest : List Char) :
    skip.run (c :: rest) = some ((), c :: rest) := by
  simp [skip, h]

theorem run_skip_spaces {sp : List Char} (hsp : ∀ c ∈ sp, isSpace c = true) {c : Char}
    (h : isSpace c = false) (rest : List Char) :
    skip.run (sp ++ c :: rest) = some ((), c :: rest) := by
  simp [skip, List.dropWhile_append_of_pos hsp, h]

section

variable {β : Type} {close : Char} {p : Reader Char β} {ok : List Char → Prop}

/-- What closes a list. -/
structure Closes (close : Char) : Prop where
  space : isSpace close = false
  comma : close ≠ ','
  stops : (close.isDigit || close = '.' || close = 'e' || close = 'E') = false

/-- `p` reads an element from a text that begins neither with a space nor with the end of the
list. -/
structure Element (p : Reader Char β) (close : Char) (w : List Char) (b : β) : Prop where
  reads : Reads p Stops w b
  starts : ∃ c rest, w = c :: rest ∧ isSpace c = false ∧ c ≠ close

/-- The texts of a list, each but the first behind a comma. -/
theorem intercalate_cons (sep w : List Char) : ∀ ws : List (List Char),
    sep.intercalate (w :: ws) = w ++ ws.flatMap fun x => sep ++ x
  | [] => by simp
  | x :: ws => by
    rw [List.intercalate_cons_cons, intercalate_cons sep x ws, List.flatMap_cons,
      List.append_assoc, List.append_assoc]

theorem run_next {xs mid : List Char} {c : Char} (h : skip.run xs = some ((), c :: mid)) :
    (next close p).run xs = if c = close then some (none, mid) else
      if c = ',' then (skip >>= fun _ => some <$> p).run mid else none := by
  rw [next, run_bind, h]
  simp only [Option.bind_some, run_bind, run_any_cons]
  split
  · rfl
  · split <;> rfl

theorem reads_next (hclose : Closes close) {sp : List Char} (hsp : ∀ c ∈ sp, isSpace c = true)
    {w : List Char} {b : β} (h : Element p close w b) :
    Reads (next close p) Stops (',' :: sp ++ w) (some b) := by
  intro rest hrest
  obtain ⟨c, w', rfl, hc, -⟩ := h.starts
  have hcomma := run_skip (c := ',') (by decide) (sp ++ (c :: w' ++ rest))
  have hskip := run_skip_spaces hsp hc (w' ++ rest)
  rw [List.append_assoc, List.cons_append, run_next hcomma, if_neg hclose.comma.symm, if_pos rfl,
    List.cons_append, run_bind, hskip, ← List.cons_append]
  exact h.reads.map some rest hrest

theorem reads_close (hclose : Closes close) : Reads (next close p) ok [close] none := by
  intro rest hrest
  simp [next, run_skip hclose.space]

/-- The elements behind the first one. -/
theorem reads_rest (hclose : Closes close) {sp : List Char} (hsp : ∀ c ∈ sp, isSpace c = true)
    {items : List (List Char × β)} (h : ∀ i ∈ items, Element p close i.1 i.2) :
    Reads (Reader.loop (next close p)) ok
      ((items.map Prod.fst).flatMap (fun w => ',' :: sp ++ w) ++ [close])
      (items.map Prod.snd) := by
  have hloop : Reads (Reader.loop (next close p)) ok
      ((items.map fun j => (',' :: sp ++ j.1, j.2)).flatMap Prod.fst ++ [close])
      ((items.map fun j => (',' :: sp ++ j.1, j.2)).map Prod.snd) := by
    refine reads_loop (reads_close hclose) (fun rest _ => stops_cons hclose.stops rest) ?_
    intro i hi
    obtain ⟨j, hj, rfl⟩ := List.mem_map.mp hi
    exact ⟨List.cons_ne_nil _ _, fun rest => stops_cons (by decide) _,
      reads_next hclose hsp (h j hj)⟩
  simpa only [List.flatMap_map, List.map_map, Function.comp_def] using hloop

theorem run_list {c : Char} (hc : isSpace c = false) (hne : c ≠ close) (xs : List Char) :
    (list close p).run (c :: xs) = (p.run (c :: xs)).bind fun r =>
      ((Reader.loop (next close p)).run r.2).bind fun s => some (r.1 :: s.1, s.2) := by
  simp [list, run_skip hc, hne]

/-- **A list is read element by element.** -/
theorem reads_list (hclose : Closes close) {sp : List Char} (hsp : ∀ c ∈ sp, isSpace c = true) :
    ∀ {items : List (List Char × β)}, (∀ i ∈ items, Element p close i.1 i.2) →
    Reads (list close p) ok ((',' :: sp).intercalate (items.map Prod.fst) ++ [close])
      (items.map Prod.snd)
  | [], _ => by
    intro rest hrest
    simp [list, run_skip hclose.space]
  | i :: items, h => by
    intro rest hrest
    have htail : Reads (Reader.loop (next close p)) ok _ _ :=
      reads_rest hclose hsp fun j hj => h j (List.mem_cons_of_mem i hj)
    have htail := htail rest hrest
    have hstops :
        Stops ((items.map Prod.fst).flatMap (fun w => ',' :: sp ++ w) ++ [close] ++ rest) := by
      cases items with
      | nil => exact stops_cons hclose.stops rest
      | cons j items => exact stops_cons (by decide) _
    have hi := h i List.mem_cons_self
    have hp := hi.reads _ hstops
    obtain ⟨c, w, hw, hc, hne⟩ := hi.starts
    rw [hw, List.cons_append] at hp
    rw [List.map_cons, intercalate_cons, List.append_assoc, List.append_assoc,
      ← List.append_assoc _ [close], hw, List.cons_append, run_list hc hne, hp, Option.bind_some,
      htail]
    rfl

end

theorem reads_array {depth : Nat} {ok : List Char → Prop} {sp : List Char}
    (hsp : ∀ c ∈ sp, isSpace c = true) {items : List (List Char × Value)}
    (h : ∀ i ∈ items, Element (value depth) ']' i.1 i.2) :
    Reads (value (depth + 1)) ok
      ('[' :: ((',' :: sp).intercalate (items.map Prod.fst) ++ [']']))
      (.arr (items.map Prod.snd)) := by
  have hclose : Closes ']' := ⟨by decide, by decide, by decide⟩
  exact (reads_list hclose hsp h).map Value.arr

theorem run_symbol (c : Char) (rest : List Char) :
    (symbol c).run (c :: rest) = some ((), rest) := by
  simp [symbol]

theorem element_member {depth : Nat} {sp wk w key : List Char} {v : Value}
    (hsp : ∀ c ∈ sp, isSpace c = true) (hkey : Spells wk (Utf16.encode key))
    (h : Reads (value depth) Stops w v) (hw : ∃ c rest, w = c :: rest ∧ isSpace c = false) :
    Element (member (value depth)) '\x7d' ('"' :: (wk ++ ['"']) ++ ':' :: sp ++ w) (key, v) := by
  refine ⟨?_, '"', _, rfl, by decide, by decide⟩
  intro rest hrest
  obtain ⟨c, w', rfl, hc⟩ := hw
  have hstring : Reads string (fun _ => True) (wk ++ ['"']) key := hkey.string
  have hcolon := run_skip (c := ':') (by decide) (sp ++ c :: (w' ++ rest))
  have hspaces := run_skip_spaces hsp hc (w' ++ rest)
  have hshape : '"' :: (wk ++ ['"']) ++ ':' :: sp ++ c :: w' ++ rest
      = '"' :: ((wk ++ ['"']) ++ ':' :: (sp ++ c :: (w' ++ rest))) := by
    simp
  rw [hshape, member, run_bind, run_symbol, Option.bind_some, run_bind, hstring _ trivial,
    Option.bind_some, run_bind, hcolon, Option.bind_some, run_bind, run_symbol, Option.bind_some,
    run_bind, hspaces, Option.bind_some]
  exact h.map (fun x => (key, x)) rest hrest

theorem reads_object {depth : Nat} {ok : List Char → Prop} {sp : List Char}
    (hsp : ∀ c ∈ sp, isSpace c = true) {items : List (List Char × List Char × Value)}
    (h : ∀ i ∈ items, Element (member (value depth)) '\x7d' i.1 i.2) :
    Reads (value (depth + 1)) ok
      ('\x7b' :: ((',' :: sp).intercalate (items.map Prod.fst) ++ ['\x7d']))
      (.obj (items.map Prod.snd)) := by
  have hclose : Closes '\x7d' := ⟨by decide, by decide, by decide⟩
  exact (reads_list hclose hsp h).map Value.obj

/-! ## Where an array or an object ends -/

section

variable {β : Type} {close : Char} {p : Reader Char β}

/-- The end of a list is the same whatever follows. -/
theorem next_stop {xs rest : List Char} (ys : List Char)
    (h : (next close p).run xs = some (none, rest)) :
    (next close p).run (xs ++ ys) = some (none, rest ++ ys) := by
  cases hskip : skip.run xs with
  | none => simp [next, hskip] at h
  | some r =>
    obtain ⟨u, mid⟩ := r
    cases mid with
    | nil => simp [next, hskip] at h
    | cons c mid =>
      have hmore := skip.extend ys hskip (List.cons_ne_nil c mid)
      rw [run_next hskip] at h
      rw [run_next hmore]
      split at h
      · next hc =>
        cases h
        exact if_pos hc
      · split at h
        · rw [run_bind] at h
          obtain ⟨r, -, h⟩ := Option.bind_eq_some_iff.mp h
          rw [run_map] at h
          obtain ⟨s, -, h⟩ := Option.bind_eq_some_iff.mp h
          cases h
        · cases h

theorem closed_list (hp : p.run [] = none) : Closed (list close p) := by
  have hnext : Closed (Reader.loop (next close p)) :=
    closed_loop rfl fun xs rest ys h => next_stop ys h
  have hfirst :
      (p >>= fun x => (fun xs => x :: xs) <$> Reader.loop (next close p)).run [] = none := by
    simp [hp]
  refine Closed.bind (fun _ => ?_) fun _ => hfirst
  exact (closed_any.map _).ifNext (Closed.bind (fun _ => hnext.map _) fun _ => rfl) hfirst

end

theorem value_nil (depth : Nat) : (value depth).run [] = none := by
  cases depth <;> rfl

theorem parse_some {depth : Nat} {text : List Char} {v : Value} {c : Char} {w : List Char}
    (hw : text = c :: w) (hc : isSpace c = false) (h : (value depth).run text = some (v, [])) :
    parse depth text = some v := by
  subst hw
  simp [parse, run_skip hc, h]

/-- **Nothing shorter than an object is a value.** -/
theorem parse_cut {depth : Nat} {w w' z : List Char} {v : Value}
    (hw : (value depth).run ('\x7b' :: w) = some (v, [])) (hcut : '\x7b' :: w = w' ++ z)
    (hz : z ≠ []) : parse depth w' = none := by
  cases depth with
  | zero => simp [value, scalar, number, unsigned, whole, Char.isDigit] at hw
  | succ depth =>
    have hobj : ∀ xs, (value (depth + 1)).run ('\x7b' :: xs)
        = (Value.obj <$> list '\x7d' (member (value depth))).run xs := fun _ => rfl
    have hclosed : Closed (Value.obj <$> list '\x7d' (member (value depth))) :=
      (closed_list rfl).map _
    cases w' with
    | nil => simp [parse, skip, value_nil]
    | cons c w' =>
      rw [List.cons_append] at hcut
      injection hcut with hc hcut
      subst hc
      have hnone := hclosed.cut (hobj w ▸ hw) hcut hz
      rw [parse, run_bind, run_skip (by decide), Option.bind_some, hobj, hnone]

end Infra.JsonText
