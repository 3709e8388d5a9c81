import ContentLang.Proofs.Printing.RoundTrip
import ContentLang.Proofs.Typed.Numerals

/-!
# Typed values of what was written

A node without calls has the same typed value once it was written and read again
(`ContentLang.typed_as_written`). Writing may put quotes around content that had none, and quoted
content is always a string. But it does so only where the content could not be read back otherwise,
and no number and no truth value is spelled like that (`ContentLang.Toml.ofToken_rewritten`).
-/

namespace ContentLang

open Grammar

namespace Toml

/-! ### Tokens -/

/-- Content that has to be quoted is a string, with or without quotes. -/
theorem ofPlain_of_needsQuotes {s : String} (h : needsQuotes s.toList = true) :
    ofPlain s = .string s := by
  have hword : ∀ word : String, needsQuotes word.toList = false → s ≠ word := by
    rintro word hword rfl
    exact Bool.false_ne_true (hword.symm.trans h)
  have hnumber : number? s.toList = none := by
    cases hn : number? s.toList with
    | none => rfl
    | some v =>
      obtain ⟨hne, hnumerals⟩ := numerals_of_number? hn
      exact absurd ((needsQuotes_of_numerals hne hnumerals).symm.trans h) Bool.false_ne_true
  rw [ofPlain, if_neg (hword "true" (by decide)), if_neg (hword "false" (by decide)), hnumber]
  rfl

theorem ofToken_content (s : String) (o : Origin) : ofToken (.content s o) = ofPlain s := rfl

/-- **A token keeps its type** when it is written and read again. -/
theorem ofToken_rewritten {s t : Token} (h : s.Rewritten t) : ofToken t = ofToken s := by
  obtain ⟨hvalue, hcontent, hquoted⟩ := h
  unfold ofToken
  rw [hvalue, hcontent, hquoted, TokenOf.quotedAgain]
  cases hc : s.isContent with
  | false => rfl
  | true =>
    cases hq : s.quoted with
    | true => rfl
    | false =>
      cases hn : needsQuotes s.value.toList with
      | false => rfl
      | true => exact (ofPlain_of_needsQuotes hn).symm

/-! ### Nodes -/

theorem isNull_rewritten {s t : Token} (h : s.Rewritten t) : t.isNull = s.isNull := by
  simp only [TokenOf.isNull, h.1, h.2.1]

mutual

/-- **A node without calls keeps its typed value** when it is written and read again. -/
theorem ofNode_rewritten {m n : Node} (h : m.Rewritten n) (hcalls : m.calls = []) :
    ofNode n = ofNode m := by
  match m, n, h with
  | .token s, .token t, h => simp only [ofNode, isNull_rewritten h, ofToken_rewritten h]
  | .call f ps o, .call g qs o', h => simp [Node.calls] at hcalls
  | .statement f ps o d, .statement g qs o' e, h => simp [Node.calls] at hcalls
  | .block es o, .block fs o', h =>
    have h' : Node.RewrittenEntries es fs := h
    rw [ofNode, ofNode, ofEntries_rewritten h' hcalls]
  | .array is o, .array js o', h =>
    have h' : Node.RewrittenAll is js := h
    rw [ofNode, ofNode, ofItems_rewritten h' hcalls]

theorem ofItems_rewritten {ms ns : List Node} (h : Node.RewrittenAll ms ns)
    (hcalls : Node.callsOfAll ms = []) : ofItems ns = ofItems ms := by
  match ms, ns, h with
  | [], [], _ => rfl
  | m :: ms, n :: ns, h =>
    obtain ⟨hm, hms⟩ := List.append_eq_nil_iff.mp hcalls
    rw [ofItems, ofItems, ofNode_rewritten h.1 hm, ofItems_rewritten h.2 hms]

theorem ofEntries_rewritten {es fs : List (TokenOf Node × Node)} (h : Node.RewrittenEntries es fs)
    (hcalls : Node.callsOfEntries es = []) : ofEntries fs = ofEntries es := by
  match es, fs, h with
  | [], [], _ => rfl
  | (k, m) :: es, (l, n) :: fs, h =>
    obtain ⟨hm, hes⟩ := List.append_eq_nil_iff.mp hcalls
    rw [ofEntries, ofEntries, ofNode_rewritten h.2.1 hm, ofEntries_rewritten h.2.2 hes, h.1.1]

end

mutual

/-- A node without calls has a typed value, or is null. -/
theorem ofNode_ok {n : Node} (hcalls : n.calls = []) : ∃ v, ofNode n = .ok v := by
  match n with
  | .token t => exact ⟨_, rfl⟩
  | .call f ps o => simp [Node.calls] at hcalls
  | .statement f ps o d => simp [Node.calls] at hcalls
  | .block es o =>
    have hentries : Node.callsOfEntries es = [] := hcalls
    obtain ⟨vs, hvs⟩ := ofEntries_ok hentries
    exact ⟨_, by rw [ofNode, hvs]; rfl⟩
  | .array is o =>
    have hitems : Node.callsOfAll is = [] := hcalls
    obtain ⟨vs, hvs⟩ := ofItems_ok hitems
    exact ⟨_, by rw [ofNode, hvs]; rfl⟩

theorem ofItems_ok {ns : List Node} (hcalls : Node.callsOfAll ns = []) :
    ∃ vs, ofItems ns = .ok vs := by
  match ns with
  | [] => exact ⟨[], rfl⟩
  | n :: ns =>
    obtain ⟨hn, hns⟩ := List.append_eq_nil_iff.mp hcalls
    obtain ⟨v, hv⟩ := ofNode_ok hn
    obtain ⟨vs, hvs⟩ := ofItems_ok hns
    exact ⟨_, by rw [ofItems, hv, hvs]; rfl⟩

theorem ofEntries_ok {es : List (TokenOf Node × Node)} (hcalls : Node.callsOfEntries es = []) :
    ∃ vs, ofEntries es = .ok vs := by
  match es with
  | [] => exact ⟨[], rfl⟩
  | (k, n) :: es =>
    obtain ⟨hn, hes⟩ := List.append_eq_nil_iff.mp hcalls
    obtain ⟨v, hv⟩ := ofNode_ok hn
    obtain ⟨vs, hvs⟩ := ofEntries_ok hes
    exact ⟨_, by rw [ofEntries, hv, hvs]; rfl⟩

end

end Toml

/-- **Printing preserves typed values**: what a node without calls is written as, in either layout,
is read as a node with the same typed value, and so is the file whose elements are the items of an
array. -/
theorem typed_as_written {n : Node} (h : n.Writable) (hcalls : n.calls = []) (layout : Layout)
    (file uniqueId : String) :
    ∃ v, Toml.ofNode n = .ok v ∧
      (∃ m, parseText (n.text layout) file uniqueId = ([m], []) ∧ Toml.ofNode m = .ok v) ∧
      ∀ items o, n = .array items o → ∃ ns,
        parseText (Node.fileText layout items) file uniqueId = (ns, []) ∧
          Toml.ofNode (rootOf file ns) = .ok v := by
  obtain ⟨v, hv⟩ := Toml.ofNode_ok hcalls
  refine ⟨v, hv, ?_, ?_⟩
  · obtain ⟨m, hm, hre⟩ := parseText_text h layout file uniqueId
    exact ⟨m, hm, (Toml.ofNode_rewritten hre hcalls).trans hv⟩
  · rintro items o rfl
    obtain ⟨ns, hns, hre⟩ := parseText_fileText h layout file uniqueId
    have hroot : (Node.array items o).Rewritten (rootOf file ns) := hre
    exact ⟨ns, hns, (Toml.ofNode_rewritten hroot hcalls).trans hv⟩

/-- A blank in front makes a string of digits, and of the text in quotes that it is written as. -/
theorem typed_as_written_block :
    let o : Origin := .unwritten
    let items : List Node := [.token (.content "12" o), .token (.content " 12" o),
      .token (.null o), .token (.content "true" o)]
    let n : Node := .block [(.key "a b", .array items o)] o
    let v : Toml.Value := .table [("a b", .array [.integer 12, .string " 12", .boolean true])]
    n.Writable ∧ n.calls = [] ∧ Toml.ofNode n = .ok (some v) ∧
      ∃ m, parseText (n.text .spread) "a.txt" "" = ([m], []) ∧ Toml.ofNode m = .ok (some v) := by
  intro o items n v
  have h : n.Writable := by
    simp [n, items, Node.Writable, Node.WritableAll, Node.WritableEntries, Distinct, Entries.keys,
      TokenOf.null, TokenOf.isNull, TokenOf.key, TokenOf.content, nullSymbol]
  obtain ⟨w, hw, hread, -⟩ := typed_as_written h rfl .spread "a.txt" ""
  have hplain : Toml.ofPlain "12" = .integer 12 ∧ Toml.ofPlain " 12" = .string " 12" ∧
      Toml.ofPlain "true" = .boolean true := ⟨rfl, rfl, rfl⟩
  have hv : Toml.ofNode n = .ok (some v) := by
    simp only [n, items, Toml.ofNode, Toml.ofEntries, Toml.ofItems, Toml.ofToken_content, hplain]
    rfl
  obtain rfl : some v = w := Except.ok.inj (hv.symm.trans hw)
  exact ⟨h, rfl, hv, hread⟩

end ContentLang
