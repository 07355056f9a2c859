import LlmServe.Bench.Unmarshal
import LlmServe.Properties.ScanLoop

/-!
# The lines of a response, decoded

What `json.dumps` wrote on one side is what `json.Unmarshal` finds on the other, whatever the text
in it: `unmarshal` on a line of a response is the message of the line, as long as the token fits an
`int`. A line that was cut off is no message.
-/

namespace LlmServe.Bench

open Infra

/-! ## Values -/

/-- The value that a reader sees. -/
def value : Json → JsonText.Value
  | .null => .null
  | .bool b => .bool b
  | .int i => .int i
  | .str text => .str text

theorem spells_escapeUnit {n : Nat} (hn : n < 0x10000) : JsonText.Spells (escapeUnit n) [n] := by
  have hhex : ∀ d < 16, JsonText.hexValue (Nat.digitChar d) = some d := by decide
  have hsum : ((n / 4096 % 16 * 16 + n / 256 % 16) * 16 + n / 16 % 16) * 16 + n % 16 = n := by omega
  have h := JsonText.spells_unit (hhex (n / 4096 % 16) (by omega)) (hhex (n / 256 % 16) (by omega))
    (hhex (n / 16 % 16) (by omega)) (hhex (n % 16) (by omega))
  rwa [hsum] at h

/-- **An escaped character is read as its code units.** -/
theorem spells_escapeChar (c : Char) : JsonText.Spells (escapeChar c) (Utf16.encodeChar c) := by
  have hshort : ∀ {x : Char}, x ≠ 'u' → JsonText.shortEscape x = some c →
      JsonText.Spells ['\\', x] (Utf16.encodeChar c) := JsonText.spells_short
  unfold escapeChar
  split
  · next h => exact hshort (by decide) (by rw [h]; rfl)
  split
  · next h => exact hshort (by decide) (by rw [h]; rfl)
  split
  · next h => exact hshort (by decide) (by rw [h]; rfl)
  split
  · next h => exact hshort (by decide) (by rw [h]; rfl)
  split
  · next h => exact hshort (by decide) (by rw [h]; rfl)
  split
  · next h => exact hshort (by decide) (by rw [h]; rfl)
  split
  · next h => exact hshort (by decide) (by rw [h]; rfl)
  split
  · next hquote hback _ _ _ _ _ h =>
    exact JsonText.spells_self hquote hback h.1
  split
  · next h =>
    rw [Utf16.encodeChar, if_pos h]
    exact spells_escapeUnit h
  · next h =>
    have hc := Utf16.toNat_bounds c
    rw [Utf16.encodeChar, if_neg h]
    exact (spells_escapeUnit (by omega)).append (spells_escapeUnit (by omega))

theorem spells_string (text : Text) :
    JsonText.Spells (text.flatMap escapeChar) (Utf16.encode text) :=
  JsonText.spells_flatMap spells_escapeChar text

/-- A value is read back from what `json.dumps` made of it. -/
theorem reads_dumps {depth : Nat} : ∀ v : Json,
    (JsonText.value depth).Reads JsonText.Stops v.dumps (value v)
  | .null => JsonText.reads_null
  | .bool b => JsonText.reads_bool b
  | .int (.ofNat n) => JsonText.reads_nat n
  | .int (.negSucc n) => JsonText.reads_neg (n + 1)
  | .str text => (spells_string text).value

/-- No value begins with a space, and no bracket closes one. -/
theorem starts_dumps (v : Json) :
    ∃ c rest, v.dumps = c :: rest ∧ JsonText.isSpace c = false ∧ c ≠ ']' := by
  have hdigits : ∀ n : Nat, ∃ c rest, Nat.toDigits 10 n = c :: rest ∧
      JsonText.isSpace c = false ∧ c ≠ ']' := by
    intro n
    obtain ⟨d, ds, hds, hd⟩ := JsonText.toDigits_cons n
    refine ⟨d, ds, hds, ?_, JsonText.digit_ne hd (by decide)⟩
    simp [JsonText.isSpace, JsonText.digit_ne hd]
  cases v with
  | null => exact ⟨'n', _, rfl, by decide, by decide⟩
  | bool b => cases b <;> exact ⟨_, _, rfl, by decide, by decide⟩
  | int i =>
    cases i with
    | ofNat n => exact hdigits n
    | negSucc n => exact ⟨'-', _, rfl, by decide, by decide⟩
  | str text => exact ⟨'"', _, rfl, by decide, by decide⟩

/-! ## Objects -/

/-- A member as it is written, and as it is read. -/
def memberText (kv : String × Json) : Text × Text × JsonText.Value :=
  (dumpsString kv.1.toList ++ ": ".toList ++ kv.2.dumps, kv.1.toList, value kv.2)

/-- The members that a reader sees. -/
def members (o : JsonObject) : List (Text × JsonText.Value) :=
  o.map fun kv => (kv.1.toList, value kv.2)

/-- **An object is read back from its line.** -/
theorem reads_dumps_object {depth : Nat} {ok : Text → Prop} (o : JsonObject) :
    (JsonText.value (depth + 1)).Reads ok o.dumps (.obj (members o)) := by
  have hspace : ∀ c ∈ [' '], JsonText.isSpace c = true := by simp [JsonText.isSpace]
  have hmember : ∀ i ∈ o.map memberText,
      JsonText.Element (JsonText.member (JsonText.value depth)) '\x7d' i.1 i.2 := by
    intro i hi
    obtain ⟨kv, -, rfl⟩ := List.mem_map.mp hi
    obtain ⟨c, rest, hw, hc, -⟩ := starts_dumps kv.2
    exact JsonText.element_member hspace (spells_string kv.1.toList) (reads_dumps kv.2)
      ⟨c, rest, hw, hc⟩
  have h : (JsonText.value (depth + 1)).Reads ok _ _ := JsonText.reads_object hspace hmember
  rw [List.map_map, List.map_map] at h
  exact h

/-- The line of an object begins with its brace. -/
theorem dumps_brace (o : JsonObject) : ∃ w, o.dumps = '\x7b' :: w := ⟨_, rfl⟩

theorem dumps_ne_nil (o : JsonObject) : o.dumps ≠ [] := List.cons_ne_nil _ _

/-- A line is all of its object. -/
theorem run_dumps (o : JsonObject) :
    (JsonText.value maxNestingDepth).run o.dumps = some (.obj (members o), []) := by
  have h : (JsonText.value maxNestingDepth).Reads (fun _ => True) o.dumps (.obj (members o)) :=
    reads_dumps_object o
  have hrun := h [] trivial
  rwa [List.append_nil] at hrun

theorem parse_dumps (o : JsonObject) :
    JsonText.parse maxNestingDepth o.dumps = some (.obj (members o)) := by
  obtain ⟨w, hw⟩ := dumps_brace o
  exact JsonText.parse_some hw (by decide) (run_dumps o)

theorem unmarshal_dumps (o : JsonObject) :
    unmarshal o.dumps = (members o).foldlM Msg.setField {} := by
  rw [unmarshal, parse_dumps]

/-- **A line that was cut off is no message.** -/
theorem unmarshal_cut {o : JsonObject} {w z : Text} (hcut : o.dumps = w ++ z) (hz : z ≠ []) :
    unmarshal w = none := by
  have hrun := run_dumps o
  obtain ⟨x, hx⟩ := dumps_brace o
  rw [hx] at hcut hrun
  rw [unmarshal, JsonText.parse_cut hrun hcut hz]

/-! ## Messages -/

/-- What fits Go's `int`. -/
def Int64 (i : Int) : Prop := -2 ^ 63 ≤ i ∧ i < 2 ^ 63

theorem setField_tokenId (m : Msg) (v : JsonText.Value) :
    m.setField ("token_id".toList, v) = m.setTokenId v := by
  rw [Msg.setField, if_pos rfl]

theorem setField_done (m : Msg) (v : JsonText.Value) :
    m.setField ("done".toList, v) = m.setDone v := by
  rw [Msg.setField, if_neg (by decide), if_pos rfl]

/-- A key that the struct does not have. -/
theorem setField_other (m : Msg) {key : Text} (v : JsonText.Value)
    (htoken : foldName key ≠ foldName "token_id".toList)
    (hdone : foldName key ≠ foldName "done".toList) : m.setField (key, v) = some m := by
  rw [Msg.setField, if_neg htoken, if_neg hdone]

theorem setField_text (m : Msg) (v : JsonText.Value) :
    m.setField ("text".toList, v) = some m := setField_other m v (by decide) (by decide)

/-- One field after the other. -/
theorem foldlM_setField {m m' : Msg} {kv : Text × JsonText.Value}
    {kvs : List (Text × JsonText.Value)} (h : m.setField kv = some m') :
    (kv :: kvs).foldlM Msg.setField m = kvs.foldlM Msg.setField m' := by
  rw [List.foldlM_cons, h]
  rfl

theorem unmarshal_tokenLine {t : Token} (ht : Int64 t) (text : Text) :
    unmarshal (tokenLine t text).dumps = some { tokenId := some t } := by
  have htoken : Msg.setField {} ("token_id".toList, .int t) = some { tokenId := some t } := by
    rw [setField_tokenId]
    exact if_pos ht
  rw [unmarshal_dumps]
  exact (foldlM_setField htoken).trans (foldlM_setField (setField_text _ _))

theorem unmarshal_tailLine (text : Text) : unmarshal (tailLine text).dumps = some {} := by
  have htoken : Msg.setField {} ("token_id".toList, .null) = some {} := setField_tokenId _ _
  rw [unmarshal_dumps]
  exact (foldlM_setField htoken).trans (foldlM_setField (setField_text _ _))

theorem unmarshal_doneLine (finishReason : Option FinishReason) (n : Nat) :
    unmarshal (doneLine finishReason n).dumps = some { done := true } := by
  have hdone : Msg.setField {} ("done".toList, .bool true) = some { done := true } :=
    setField_done _ _
  have hreason : ∀ m v, Msg.setField m ("finish_reason".toList, v) = some m :=
    fun m v => setField_other m v (by decide) (by decide)
  have hn : ∀ m v, Msg.setField m ("n_tokens".toList, v) = some m :=
    fun m v => setField_other m v (by decide) (by decide)
  rw [unmarshal_dumps]
  exact (foldlM_setField hdone).trans
    ((foldlM_setField (hreason _ _)).trans (foldlM_setField (hn _ _)))

end LlmServe.Bench
