import LlmServe.Infra.Utf8Ends
import LlmServe.Properties.ResponseLines

/-!
# What a push holds back

`push` takes a U+FFFD at the end of the text for an incomplete character. A sequence that can still
be completed reads so, and is rightly held back; but so does a byte that no character has, and so
does U+FFFD itself where the bytes encode it. All text is out exactly if the bytes end in the
encoding of another character.
-/

namespace LlmServe

open Infra IncrementalDetokenizer

variable (tok : Tokenizer) (ids : List Token) (t : Token)

theorem allBytes_snoc_ne_nil : tok.allBytes (ids ++ [t]) ≠ [] :=
  tok.allBytes_ne_nil (List.concat_ne_nil t ids)

/-- Nothing is withheld after a `push` exactly if the bytes so far end in the encoding of a
character other than U+FFFD. -/
theorem nothing_withheld_iff :
    (pushAll tok {} (ids ++ [t])).1.flatten = tok.decode (ids ++ [t]) ↔
      Utf8.EndsInChar (tok.allBytes (ids ++ [t])) := by
  have hpush := (emitted_pushAll tok ids).push_complete_iff t
  rw [ids_pushAll_new] at hpush
  rw [pushAll_snoc, List.flatten_append, List.flatten_singleton, hpush]
  exact Utf8.getLast_ne_iff (allBytes_snoc_ne_nil tok ids t)

/--
**Text is held back only inside a character, except behind U+FFFD.** "If the bytes of all ids so far
do not end in a part of a character that can still be completed, all text has been returned" holds
exactly if they end in such a part or in a character other than U+FFFD. It fails for a byte that no
character has, and for U+FFFD itself.
-/
theorem held_back_only_inside_iff :
    (¬Utf8.Incomplete (tok.allBytes (ids ++ [t])) →
      (pushAll tok {} (ids ++ [t])).1.flatten = tok.decode (ids ++ [t])) ↔
    Utf8.Incomplete (tok.allBytes (ids ++ [t])) ∨
      Utf8.EndsInChar (tok.allBytes (ids ++ [t])) := by
  rw [nothing_withheld_iff]
  exact or_iff_not_imp_left.symm

/-- Three tokens of the GPT-2 vocabulary: 64 is `a`, 187 the byte FF, and 4210 U+FFFD. -/
def threeTokens : Tokenizer where
  bytes t := if t = 187 then [0xFF] else if t = 4210 then [0xEF, 0xBF, 0xBD] else [0x61]
  bytes_ne_nil t := by
    split
    · exact List.cons_ne_nil _ _
    · split <;> exact List.cons_ne_nil _ _

/-- No byte completes FF, and U+FFFD is complete; both are withheld. -/
theorem held_back_outside_a_character :
    (¬Utf8.Incomplete (threeTokens.allBytes [64, 187]) ∧
      (pushAll threeTokens {} [64, 187]).1.flatten = ['a'] ∧
      threeTokens.decode [64, 187] = ['a', Utf8.replacement]) ∧
    (¬Utf8.Incomplete (threeTokens.allBytes [64, 4210]) ∧
      (pushAll threeTokens {} [64, 4210]).1.flatten = ['a'] ∧
      threeTokens.decode [64, 4210] = ['a', Utf8.replacement]) := by
  rw [← Utf8.not_clean_iff, ← Utf8.not_clean_iff, not_not, not_not]
  decide

/-- `events_iter` yields the same: what a client has been sent behind an event, final or not. -/
theorem nothing_withheld_events_iff (fin : Bool) :
    ((eventsIter tok {} 0 (ids.map (fun t => (t, false)) ++ [(t, fin)])).1.map
      Yielded.text).flatten = tok.decode (ids ++ [t]) ↔
      Utf8.EndsInChar (tok.allBytes (ids ++ [t])) := by
  rw [eventsIter_text, nothing_withheld_iff]

/-- **Valid text is held back only inside a character**: on bytes that go on to encode a text
without U+FFFD, cut into tokens anywhere. -/
theorem held_back_only_inside_valid {text : Text} (hno : Utf8.replacement ∉ text)
    (hvalid : tok.allBytes (ids ++ [t]) <+: text.flatMap String.utf8EncodeChar)
    (hinside : ¬Utf8.Incomplete (tok.allBytes (ids ++ [t]))) :
    (pushAll tok {} (ids ++ [t])).1.flatten = tok.decode (ids ++ [t]) := by
  obtain ⟨rest, hrest⟩ := hvalid
  have hclean : Utf8.Clean (tok.allBytes (ids ++ [t])) :=
    not_not.mp (mt Utf8.not_clean_iff.mp hinside)
  have htext : tok.decode (ids ++ [t]) ++ Utf8.decode rest = text := by
    unfold Tokenizer.decode
    rw [← Utf8.decode_append hclean, hrest, Utf8.decode_encode]
  have hlast : (tok.decode (ids ++ [t])).getLast? ≠ some Utf8.replacement := by
    intro hl
    apply hno
    rw [← htext]
    exact List.mem_append_left _ (List.mem_of_getLast? hl)
  exact (nothing_withheld_iff tok ids t).mpr
    ((Utf8.getLast_ne_iff (allBytes_snoc_ne_nil tok ids t)).mp hlast)

end LlmServe
