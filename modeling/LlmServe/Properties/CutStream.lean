import LlmServe.Properties.LineReading
import LlmServe.Theorems.StreamFormat

/-!
# A stream that is cut off

The deadline of a load test can cut a response anywhere, also inside a line. What the reader makes of
such a body is what it makes of the lines that arrived whole (`doRequest_received`).
-/

namespace LlmServe.Bench

open Infra

/-! ## Where the cut falls -/

/-- The pieces of a line that was cut off: none, or one that lacks its end. -/
def CutOff (lines : List JsonObject) (part : List Text) : Prop :=
  ∀ w ∈ part, ∃ o ∈ lines, ∃ z, z ≠ [] ∧ o.dumps = w ++ z

theorem splitLines_short : ∀ {line : Text} (cur : Text), '\n' ∉ line →
    splitLines cur line = if cur ++ line = [] then [] else [cur ++ line]
  | [], cur, _ => by
    rw [splitLines, List.append_nil]
  | c :: line, cur, h => by
    rw [List.mem_cons, not_or] at h
    rw [splitLines, if_neg (Ne.symm h.1), splitLines_short _ h.2, List.append_assoc,
      List.singleton_append]

/-- **The lines of a body that was cut off** are the first ones, and perhaps a piece of the next. -/
theorem splitLines_received : ∀ {lines : List JsonObject} {received : Text},
    received <+: streamBody lines → ∃ k part, CutOff lines part ∧
      splitLines [] received = (lines.take k).map JsonObject.dumps ++ part ∧
      (received = streamBody lines → k = lines.length ∧ part = [])
  | [], received, h => by
    obtain rfl := List.prefix_nil.mp h
    exact ⟨0, [], List.forall_mem_nil _, rfl, fun _ => ⟨rfl, rfl⟩⟩
  | o :: lines, received, h => by
    have hbody : streamBody (o :: lines) = o.dumps ++ '\n' :: streamBody lines := by
      simp only [streamBody, List.flatMap_cons, List.append_assoc, List.singleton_append]
    have hline := newline_notMem_dumps o
    rw [hbody] at h ⊢
    have hcut : ∀ {part : List Text}, CutOff lines part → CutOff (o :: lines) part := by
      intro part hpart w hw
      obtain ⟨x, hx, hz⟩ := hpart w hw
      exact ⟨x, List.mem_cons_of_mem o hx, hz⟩
    have hnone : CutOff (o :: lines) [] := List.forall_mem_nil _
    rcases List.prefix_or_prefix_of_prefix h (List.prefix_append _ _) with hshort | ⟨tail, rfl⟩
    · -- nothing behind the first line
      obtain ⟨z, hz⟩ := hshort
      have hmem : '\n' ∉ received := fun hn => hline (hz ▸ List.mem_append_left z hn)
      have hall : received ≠ o.dumps ++ '\n' :: streamBody lines := by
        rintro rfl
        exact hmem (List.mem_append_right _ List.mem_cons_self)
      rw [splitLines_short [] hmem, List.nil_append]
      by_cases hnil : received = []
      · exact ⟨0, [], hnone, if_pos hnil, fun he => absurd he hall⟩
      · rw [if_neg hnil]
        by_cases hz0 : z = []
        · rw [hz0, List.append_nil] at hz
          exact ⟨1, [], hnone, by rw [hz]; rfl, fun he => absurd he hall⟩
        · refine ⟨0, [received], ?_, rfl, fun he => absurd he hall⟩
          intro w hw
          obtain rfl := List.mem_singleton.mp hw
          exact ⟨o, List.mem_cons_self, z, hz0, hz.symm⟩
    · rcases List.prefix_cons_iff.mp ((List.prefix_append_right_inj _).mp h) with
        rfl | ⟨rest, rfl, hrest⟩
      · -- the line is there, its end is not
        refine ⟨1, [], hnone, ?_, fun he => ?_⟩
        · rw [List.append_nil, splitLines_short [] hline, List.nil_append, if_neg (dumps_ne_nil o)]
          rfl
        · have hlen := congrArg List.length he
          simp at hlen
      · obtain ⟨k, part, hpart, hsplit, hwhole⟩ := splitLines_received hrest
        refine ⟨k + 1, part, hcut hpart, ?_, fun he => ?_⟩
        · rw [splitLines_line [] _ hline, hsplit, List.nil_append]
          rfl
        · have htail : rest = streamBody lines := by simpa using he
          obtain ⟨hk, hp⟩ := hwhole htail
          exact ⟨by rw [hk, List.length_cons], hp⟩

/-! ## What the reader makes of it -/

theorem dropCR_cut {o : JsonObject} {w z : Text} (h : o.dumps = w ++ z) : dropCR w = w := by
  unfold dropCR
  rw [if_neg]
  intro hcr
  have hmem : '\r' ∈ o.dumps := h ▸ List.mem_append_left z (List.mem_of_getLast? hcr)
  exact absurd (printable_dumps_object o _ hmem) (by decide)

/-- Lines that are no messages change nothing. -/
theorem readLines_none (start arrival : Rat) : ∀ {part : List Text} (clock : Nat → Rat)
    (rd : Reading), (∀ w ∈ part, unmarshal w = none) →
    readLines unmarshal start arrival clock rd part = rd
  | [], _, _, _ => rfl
  | w :: part, clock, rd, h => by
    rw [readLines, h w List.mem_cons_self]
    exact readLines_none start arrival _ rd fun x hx => h x (List.mem_cons_of_mem w hx)

/-- **The reader of a body that was cut off sees its first lines**, all of them if it was not. -/
theorem doRequest_received {lines : List JsonObject} (hfit : ∀ o ∈ lines, Fits o) {received : Text}
    (h : received <+: streamBody lines) (start arrival : Rat) (clock : Nat → Rat) :
    ∃ k, doRequest unmarshal start arrival clock (.answered 200 received)
        = (readLines unmarshal start arrival clock {} ((lines.take k).map JsonObject.dumps)).result ∧
      (received = streamBody lines → k = lines.length) := by
  obtain ⟨k, part, hpart, hsplit, hwhole⟩ := splitLines_received h
  refine ⟨k, ?_, fun he => (hwhole he).1⟩
  have hpart' : ∀ w ∈ part, unmarshal w = none ∧ w.length < maxTokenSize ∧ dropCR w = w := by
    intro w hw
    obtain ⟨o, ho, z, hz, hcut⟩ := hpart w hw
    have hlen : o.dumps.length < maxTokenSize := hfit o ho
    rw [hcut, List.length_append] at hlen
    exact ⟨unmarshal_cut hcut hz, by omega, dropCR_cut hcut⟩
  have hscan : scanLines received = (lines.take k).map JsonObject.dumps ++ part := by
    have hshort : ∀ l ∈ (lines.take k).map JsonObject.dumps ++ part, l.length < maxTokenSize := by
      intro l hl
      rcases List.mem_append.mp hl with hl | hl
      · obtain ⟨o, ho, rfl⟩ := List.mem_map.mp hl
        exact hfit o (List.mem_of_mem_take ho)
      · exact (hpart' l hl).2.1
    have hcr : ∀ l ∈ (lines.take k).map JsonObject.dumps ++ part, dropCR l = l := by
      intro l hl
      rcases List.mem_append.mp hl with hl | hl
      · obtain ⟨o, -, rfl⟩ := List.mem_map.mp hl
        exact dropCR_dumps o
      · exact (hpart' l hl).2.2
    have htake := List.takeWhile_eq_self_iff.mpr fun l hl => decide_eq_true (hshort l hl)
    unfold scanLines
    rw [hsplit, htake, List.map_congr_left hcr, List.map_id']
  have hrest : ∀ clock rd, readLines unmarshal start arrival clock rd part = rd := fun clock rd =>
    readLines_none start arrival clock rd fun w hw => (hpart' w hw).1
  rw [doRequest_answered start arrival clock _ _ hscan, readLines_append, hrest]

end LlmServe.Bench
