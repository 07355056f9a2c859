import LlmServe.Properties.Windows

/-!
# Streamed text

What `push` and `flush` return, one after the other, is the text of the ids, for every split of
characters over tokens and every invalid byte.
-/

namespace LlmServe

open Infra IncrementalDetokenizer

variable (tok : Tokenizer) (ids : List Token)

/--
**Streaming is lossless and never retracts.** After any number of `push` calls the pieces are a
prefix of the text of every extension of the ids, and `flush` returns the rest of the text.
-/
theorem streaming_lossless :
    (∀ more, (pushAll tok {} ids).1.flatten <+: tok.decode (ids ++ more)) ∧
    (pushAll tok {} ids).1.flatten ++ (flush tok (pushAll tok {} ids).2).1 = tok.decode ids := by
  have hem := emitted_pushAll tok ids
  constructor
  · intro more
    have := hem.isPrefix more
    rwa [ids_pushAll_new] at this
  · rw [hem.flush, ids_pushAll_new]

/-- **Valid text comes out as it went in**: tokens that carry the encoding of a text, cut anywhere,
stream that text. -/
theorem streaming_encoded {text : Text}
    (henc : ids.flatMap tok.bytes = text.flatMap String.utf8EncodeChar) :
    (pushAll tok {} ids).1.flatten ++ (flush tok (pushAll tok {} ids).2).1 = text := by
  rw [(emitted_pushAll tok ids).flush, ids_pushAll_new, Tokenizer.decode, Tokenizer.allBytes, henc,
    Utf8.decode_encode]

end LlmServe
