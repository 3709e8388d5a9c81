import ContentLang.Library.Record
import ContentLang.Node.Printer
import ContentLang.Toml.Value

/-!
# Texts that are numbers

Two parts of the language recognise numbers: the records of numbers read a whole text, without the
blanks around it, and the conversion to typed values first looks at how a text begins. Whatever
either of them takes for a number is written with few characters (`ContentLang.numerals`), so that
it can stand without quotes (`ContentLang.needsQuotes_of_numerals`). On such texts they agree
(`ContentLang.Toml.number?_of_readFloat?`, `ContentLang.Toml.number?_of_byte`).
-/

namespace ContentLang

/-! ### The characters of numbers -/

/-- The characters that numbers are written with. -/
def numerals : List Char :=
  ['0', '1', '2', '3', '4', '5', '6', '7', '8', '9', '.', '+', '-', 'e', 'E']

theorem mem_numerals_of_isDigit {c : Char} (h : isDigit c = true) : c ∈ numerals := by
  have hrange : '0' ≤ c ∧ c ≤ '9' := by
    simpa [isDigit, digit?, Option.isSome_iff_ne_none] using h
  have hlow : 48 ≤ c.toNat := hrange.1
  have hhigh : c.toNat ≤ 57 := hrange.2
  rw [← Char.ofNat_toNat c]
  generalize c.toNat = n at hlow hhigh
  have hn : n = 48 ∨ n = 49 ∨ n = 50 ∨ n = 51 ∨ n = 52 ∨ n = 53 ∨ n = 54 ∨ n = 55 ∨ n = 56 ∨
    n = 57 := by omega
  rcases hn with rfl | rfl | rfl | rfl | rfl | rfl | rfl | rfl | rfl | rfl <;> decide

theorem numerals_plain : ∀ c ∈ numerals, isBlank c = false ∧ isSpecial c = false ∧ c ≠ '/' := by
  have hall : numerals.all (fun c => !isBlank c && !isSpecial c && c != '/') = true := by decide
  simpa only [Bool.and_eq_true, Bool.not_eq_true', bne_iff_ne, and_assoc] using
    List.all_eq_true.mp hall

theorem hasPair_eq_false {a : Char} (b : Char) {cs : List Char} (h : ∀ c ∈ cs, c ≠ a) :
    hasPair a b cs = false := by
  induction cs with
  | nil => rfl
  | cons c cs ih =>
    obtain ⟨hc, hcs⟩ := List.forall_mem_cons.mp h
    cases cs with
    | nil => rfl
    | cons d cs => simp [hasPair, hc, ih hcs]

/-- What a number is written with needs no quotes. -/
theorem needsQuotes_of_numerals {cs : List Char} (hne : cs ≠ []) (h : ∀ c ∈ cs, c ∈ numerals) :
    needsQuotes cs = false := by
  have hplain := fun c hc => numerals_plain c (h c hc)
  have hblank : ∀ o : Option Char, (∀ c ∈ o, c ∈ cs) → (o.map isBlank).getD false = false := by
    intro o ho
    cases o with
    | none => rfl
    | some c => exact (hplain c (ho c rfl)).1
  have hspecial : cs.any isSpecial = false := by
    rw [List.any_eq_false]
    exact fun c hc => Bool.eq_false_iff.mp (hplain c hc).2.1
  have hslash := fun b => hasPair_eq_false b fun c hc => (hplain c hc).2.2
  simp [needsQuotes, hne, hspecial, hslash, hblank _ fun c hc => List.mem_of_mem_head? hc,
    hblank _ fun c hc => List.mem_of_mem_getLast? hc]

/-! ### Integers -/

variable {range : IntegerRange} {negative : Bool} {n m : Int} {cs : List Char}

/-- A number with one more digit. -/
def withDigit (negative : Bool) (n : Int) (d : Nat) : Int :=
  if negative then n * 10 - d else n * 10 + d

/-- Digits are read while they are digits and the number stays within the range. -/
theorem readDigits_cons_iff {c : Char} : readDigits range negative n (c :: cs) = .ok m ↔
    ∃ d, digit? c = some d ∧ range.least ≤ withDigit negative n d ∧
      withDigit negative n d ≤ range.greatest ∧
        readDigits range negative (withDigit negative n d) cs = .ok m := by
  rw [readDigits]
  cases hd : digit? c with
  | none => simp
  | some d =>
    simp only [Option.some.injEq, exists_eq_left']
    rw [show (if negative = true then n * 10 - (d : Int) else n * 10 + d) = withDigit negative n d
      from rfl]
    by_cases hhigh : range.greatest < withDigit negative n d
    · rw [if_pos hhigh]
      exact iff_of_false nofun fun h => absurd h.2.1 (by omega)
    by_cases hlow : withDigit negative n d < range.least
    · rw [if_neg hhigh, if_pos hlow]
      exact iff_of_false nofun fun h => absurd h.1 (by omega)
    · rw [if_neg hhigh, if_neg hlow]
      exact ⟨fun h => ⟨by omega, by omega, h⟩, fun h => h.2.2⟩

theorem isDigit_of_readDigits (h : readDigits range negative n cs = .ok m) :
    ∀ c ∈ cs, isDigit c = true := by
  induction cs generalizing n with
  | nil => simp
  | cons c cs ih =>
    obtain ⟨d, hd, -, -, h⟩ := readDigits_cons_iff.mp h
    exact List.forall_mem_cons.mpr ⟨by simp [isDigit, hd], ih h⟩

/-- What is read in some range is read in a wider one, and lies in both. -/
theorem readDigits_wider {range' : IntegerRange} (hl : range'.least ≤ range.least)
    (hg : range.greatest ≤ range'.greatest) (hn : range.least ≤ n ∧ n ≤ range.greatest)
    (h : readDigits range negative n cs = .ok m) :
    readDigits range' negative n cs = .ok m ∧ range.least ≤ m ∧ m ≤ range.greatest := by
  induction cs generalizing n with
  | nil =>
    obtain rfl : n = m := Except.ok.inj h
    exact ⟨rfl, hn⟩
  | cons c cs ih =>
    obtain ⟨d, hd, hleast, hgreatest, h⟩ := readDigits_cons_iff.mp h
    obtain ⟨hwider, hm⟩ := ih ⟨hleast, hgreatest⟩ h
    exact ⟨readDigits_cons_iff.mpr ⟨d, hd, by omega, by omega, hwider⟩, hm⟩

theorem readInteger?_eq_some : readInteger? range cs = some n ↔ readInteger range cs = .ok n := by
  unfold readInteger?
  cases readInteger range cs <;> simp [Except.toOption]

/-- **An integer is digits**, after one sign or none. -/
theorem readInteger?_form (h : readInteger? range cs = some n) :
    ∃ sign digits, cs = sign ++ digits ∧ digits ≠ [] ∧ (∀ c ∈ digits, isDigit c = true) ∧
      (sign = [] ∨ sign = ['+'] ∨ sign = ['-']) := by
  rw [readInteger?_eq_some] at h
  unfold readInteger at h
  split at h
  · exact nomatch h
  · exact ⟨['+'], _, rfl, List.cons_ne_nil _ _, isDigit_of_readDigits h, Or.inr (Or.inl rfl)⟩
  · split at h
    · exact ⟨['-'], _, rfl, List.cons_ne_nil _ _, isDigit_of_readDigits h, Or.inr (Or.inr rfl)⟩
    · exact nomatch h
  next hne _ _ => exact ⟨[], cs, rfl, hne, isDigit_of_readDigits h, Or.inl rfl⟩

/-- A byte is the same integer of 64 bits. -/
theorem readInteger?_of_byte (h : readInteger? .byte cs = some n) :
    readInteger? .signed64 cs = some n ∧ 0 ≤ n ∧ n ≤ 255 := by
  rw [readInteger?_eq_some] at h ⊢
  have hleast : IntegerRange.signed64.least ≤ IntegerRange.byte.least := by decide
  have hgreatest : IntegerRange.byte.greatest ≤ IntegerRange.signed64.greatest := by decide
  have hwider : ∀ {ds}, readDigits .byte false 0 ds = .ok n →
      readDigits .signed64 false 0 ds = .ok n ∧ 0 ≤ n ∧ n ≤ 255 := fun h =>
    readDigits_wider hleast hgreatest (by decide) h
  unfold readInteger at h ⊢
  split at h
  · exact nomatch h
  · exact hwider h
  · exact absurd h (by simp [IntegerRange.byte])
  · exact hwider h

/-! ### Decimals -/

theorem mem_numerals_of_readExponent? {e : Int} (h : readExponent? cs = some e) :
    ∀ c ∈ cs, c ∈ numerals := by
  have hdigits : ∀ {ds : List Char}, ds.all isDigit = true → ∀ c ∈ ds, c ∈ numerals :=
    fun h c hc => mem_numerals_of_isDigit (List.all_eq_true.mp h c hc)
  unfold readExponent? at h
  split at h
  · split at h
    · exact List.forall_mem_cons.mpr ⟨by decide, hdigits ‹_›⟩
    · exact nomatch h
  · split at h
    · exact List.forall_mem_cons.mpr ⟨by decide, hdigits ‹_›⟩
    · exact nomatch h
  · split at h
    · exact hdigits ‹_›
    · exact nomatch h
  · exact nomatch h

/-- What comes behind the digits of a decimal is nothing or an exponent. -/
def exponent? : List Char → Option Int
  | [] => some 0
  | c :: r => if c = 'e' ∨ c = 'E' then readExponent? r else none

theorem mem_numerals_of_exponent? {e : Int} (h : exponent? cs = some e) :
    ∀ c ∈ cs, c ∈ numerals := by
  unfold exponent? at h
  split at h
  · simp
  · split at h
    next c r hc =>
      have hletter : c ∈ numerals := by rcases hc with rfl | rfl <;> decide
      exact List.forall_mem_cons.mpr ⟨hletter, mem_numerals_of_readExponent? h⟩
    · exact absurd h (by simp)

/-- The digits behind a point, if there is one, and what comes after them. -/
def splitPoint : List Char → List Char × List Char
  | '.' :: r => (r.takeWhile isDigit, r.dropWhile isDigit)
  | r => ([], r)

theorem splitPoint_form (cs : List Char) :
    (∀ c ∈ (splitPoint cs).1, isDigit c = true) ∧
      (cs = (splitPoint cs).2 ∧ (splitPoint cs).1 = [] ∨
        cs = '.' :: ((splitPoint cs).1 ++ (splitPoint cs).2)) := by
  unfold splitPoint
  split
  next r =>
    exact ⟨List.all_eq_true.mp List.all_takeWhile,
      Or.inr (by rw [List.takeWhile_append_dropWhile])⟩
  · exact ⟨by simp, Or.inl ⟨rfl, rfl⟩⟩

/-- The parts of a decimal one by one. -/
theorem readDecimal?_eq (cs : List Char) : readDecimal? cs =
    let whole := cs.takeWhile isDigit
    let (fraction, tail) := splitPoint (cs.dropWhile isDigit)
    if whole = [] ∧ fraction = [] then none
    else (exponent? tail).map fun e => ⟨digitsValue (whole ++ fraction), e - fraction.length⟩ := by
  have hsplit : readDecimal? cs =
      let whole := cs.takeWhile isDigit
      let (fraction, tail) := splitPoint (cs.dropWhile isDigit)
      if whole = [] ∧ fraction = [] then none
      else
        let digits := digitsValue (whole ++ fraction)
        match tail with
        | [] => some ⟨digits, -fraction.length⟩
        | c :: r =>
          if c = 'e' ∨ c = 'E' then (readExponent? r).map fun e => ⟨digits, e - fraction.length⟩
          else none := rfl
  rw [hsplit]
  generalize splitPoint (cs.dropWhile isDigit) = parts
  obtain ⟨fraction, tail⟩ := parts
  cases tail with
  | nil => simp [exponent?]
  | cons c r =>
    by_cases hc : c = 'e' ∨ c = 'E'
    · simp [exponent?, hc]
    · simp [exponent?, hc]

/-- **A decimal begins with a digit, or with a point and a digit**, and all of it is characters of
numbers. -/
theorem readDecimal?_form {x : Decimal} (h : readDecimal? cs = some x) :
    (∃ d r, isDigit d = true ∧ (cs = d :: r ∨ cs = '.' :: d :: r)) ∧ ∀ c ∈ cs, c ∈ numerals := by
  have hwhole : ∀ c ∈ cs.takeWhile isDigit, isDigit c = true :=
    List.all_eq_true.mp List.all_takeWhile
  have hsplit : cs = cs.takeWhile isDigit ++ cs.dropWhile isDigit :=
    List.takeWhile_append_dropWhile.symm
  obtain ⟨hfraction, hpoint⟩ := splitPoint_form (cs.dropWhile isDigit)
  rw [readDecimal?_eq] at h
  generalize cs.takeWhile isDigit = whole at h hwhole hsplit
  generalize splitPoint (cs.dropWhile isDigit) = parts at h hfraction hpoint
  generalize cs.dropWhile isDigit = rest at hsplit hpoint
  obtain ⟨fraction, tail⟩ := parts
  simp only at h hfraction hpoint
  split at h
  · exact nomatch h
  next hne =>
  obtain ⟨e, he, -⟩ := Option.map_eq_some_iff.mp h
  have hdigits : ∀ {ds : List Char}, (∀ c ∈ ds, isDigit c = true) → ∀ c ∈ ds, c ∈ numerals :=
    fun h c hc => mem_numerals_of_isDigit (h c hc)
  have hrest : ∀ c ∈ rest, c ∈ numerals := by
    rcases hpoint with ⟨rfl, -⟩ | rfl
    · exact mem_numerals_of_exponent? he
    · exact List.forall_mem_cons.mpr ⟨by decide,
        List.forall_mem_append.mpr ⟨hdigits hfraction, mem_numerals_of_exponent? he⟩⟩
  refine ⟨?_, by rw [hsplit]; exact List.forall_mem_append.mpr ⟨hdigits hwhole, hrest⟩⟩
  -- Without a digit in front there is one behind the point.
  cases whole with
  | cons d r => exact ⟨d, r ++ rest, hwhole d (List.mem_cons_self ..), Or.inl hsplit⟩
  | nil =>
    cases fraction with
    | nil => exact absurd ⟨rfl, rfl⟩ hne
    | cons d r =>
      rcases hpoint with ⟨-, hnil⟩ | hpoint
      · exact nomatch hnil
      · exact ⟨d, r ++ tail, hfraction d (List.mem_cons_self ..), Or.inr (hsplit.trans hpoint)⟩

/-! ### Numbers with a fraction -/

/-- Only a text that begins with a letter can be a number by name. -/
theorem readMagnitude?_of_head (h : ∀ c ∈ cs.head?, c ∈ numerals) :
    readMagnitude? cs = (readDecimal? cs).map Decimal.toFloat := by
  have hall : numerals.all (fun c => c.toLower != 'i' && c.toLower != 'n') = true := by decide
  have hletter : ∀ c ∈ numerals, c.toLower ≠ 'i' ∧ c.toLower ≠ 'n' := by
    simpa only [Bool.and_eq_true, bne_iff_ne] using List.all_eq_true.mp hall
  have hname : ∀ name : String, name = "inf" ∨ name = "infinity" ∨ name = "nan" →
      String.ofList (cs.map Char.toLower) ≠ name := by
    intro name hname heq
    have hlist : cs.map Char.toLower = name.toList := by rw [← heq, String.toList_ofList]
    cases cs with
    | nil => rcases hname with rfl | rfl | rfl <;> exact absurd hlist (by decide)
    | cons c r =>
      obtain ⟨hi, hn⟩ := hletter c (h c rfl)
      have hhead : (name.toList).head? = some c.toLower := by rw [← hlist]; rfl
      rcases hname with rfl | rfl | rfl
      · exact hi (Option.some.inj hhead).symm
      · exact hi (Option.some.inj hhead).symm
      · exact hn (Option.some.inj hhead).symm
  simp [readMagnitude?, hname]

/-- A finite number is no number by name. -/
theorem readDecimal?_of_finite {x : Float} (h : readMagnitude? cs = some x)
    (hx : x.isFinite = true ∨ (-x).isFinite = true) : ∃ d, readDecimal? cs = some d := by
  unfold readMagnitude? at h
  simp only at h
  split at h
  · obtain rfl := Option.some.inj h
    exact absurd hx (by decide)
  split at h
  · obtain rfl := Option.some.inj h
    exact absurd hx (by decide)
  · obtain ⟨d, hd, -⟩ := Option.map_eq_some_iff.mp h
    exact ⟨d, hd⟩

namespace Toml

/-! ### What looks like a number -/

theorem looksNumeric_sign {c : Char} (hc : c = '+' ∨ c = '-') (cs : List Char) :
    looksNumeric (c :: cs) = looksNumeric cs := by
  rcases hc with rfl | rfl <;> rfl

theorem not_sign_of_isDigit {d : Char} (h : isDigit d = true) : d ≠ '-' ∧ d ≠ '+' ∧ d ≠ '.' := by
  refine ⟨?_, ?_, ?_⟩ <;> rintro rfl <;> exact absurd h (by decide)

theorem looksNumeric_digit {d : Char} (h : isDigit d = true) (cs : List Char) :
    looksNumeric (d :: cs) = true := by
  obtain ⟨hm, hp, hdot⟩ := not_sign_of_isDigit h
  have hdrop : (d :: cs).dropWhile (fun c => c == '-' || c == '+') = d :: cs := by simp [hm, hp]
  rw [looksNumeric, hdrop]
  split
  next e r heq => exact absurd (List.cons.inj heq).1 hdot
  next e r _ heq => rw [← (List.cons.inj heq).1, h]
  next heq => exact nomatch heq

theorem looksNumeric_point {d : Char} (h : isDigit d = true) (cs : List Char) :
    looksNumeric ('.' :: d :: cs) = true := h

/-- **A decimal looks like a number.** -/
theorem looksNumeric_of_readDecimal? {x : Decimal} (h : readDecimal? cs = some x) :
    looksNumeric cs = true := by
  obtain ⟨⟨d, r, hd, rfl | rfl⟩, -⟩ := readDecimal?_form h
  · exact looksNumeric_digit hd r
  · exact looksNumeric_point hd r

/-- **An integer looks like a number.** -/
theorem looksNumeric_of_readInteger? (h : readInteger? range cs = some n) :
    looksNumeric cs = true := by
  obtain ⟨sign, digits, rfl, hne, hdigits, hsign⟩ := readInteger?_form h
  obtain ⟨d, r, rfl⟩ := List.exists_cons_of_ne_nil hne
  have hlooks := looksNumeric_digit (hdigits d (List.mem_cons_self ..)) r
  rcases hsign with rfl | rfl | rfl
  · exact hlooks
  · exact (looksNumeric_sign (Or.inl rfl) _).trans hlooks
  · exact (looksNumeric_sign (Or.inr rfl) _).trans hlooks

/-- What looks like a number begins with a character of numbers. -/
theorem head_of_looksNumeric (h : looksNumeric cs = true) :
    cs ≠ [] ∧ ∀ c ∈ cs.head?, c ∈ numerals := by
  cases cs with
  | nil => exact nomatch h
  | cons c r =>
    refine ⟨List.cons_ne_nil c r, ?_⟩
    rintro _ ⟨⟩
    by_cases hsign : c = '-' ∨ c = '+'
    · rcases hsign with rfl | rfl <;> decide
    · have hdrop : (c :: r).dropWhile (fun c => c == '-' || c == '+') = c :: r := by
        obtain ⟨hm, hp⟩ := not_or.mp hsign
        simp [hm, hp]
      rw [looksNumeric, hdrop] at h
      split at h
      next heq =>
        rw [(List.cons.inj heq).1]
        decide
      next heq =>
        rw [(List.cons.inj heq).1]
        exact mem_numerals_of_isDigit h
      next heq => exact nomatch heq

/-! ### Typed numbers -/

/-- **What is converted to a number is written with the characters of numbers.** -/
theorem numerals_of_number? {v : Value} (h : number? cs = some v) :
    cs ≠ [] ∧ ∀ c ∈ cs, c ∈ numerals := by
  unfold number? at h
  split at h
  next hlooks =>
    refine ⟨(head_of_looksNumeric hlooks).1, ?_⟩
    split at h
    next n hn =>
      obtain ⟨sign, digits, rfl, -, hdigits, hsign⟩ := readInteger?_form hn
      have hsigns : ∀ c ∈ sign, c ∈ numerals := by
        rcases hsign with rfl | rfl | rfl <;> simp [numerals]
      exact List.forall_mem_append.mpr
        ⟨hsigns, fun c hc => mem_numerals_of_isDigit (hdigits c hc)⟩
    next =>
      obtain ⟨x, hx, -⟩ := Option.map_eq_some_iff.mp h
      have hmagnitude : ∀ {ds : List Char}, looksNumeric ds = true →
          (∃ y, readMagnitude? ds = some y) → ∀ c ∈ ds, c ∈ numerals := by
        rintro ds hds ⟨y, hy⟩
        rw [readMagnitude?_of_head (head_of_looksNumeric hds).2] at hy
        obtain ⟨d, hd, -⟩ := Option.map_eq_some_iff.mp hy
        exact (readDecimal?_form hd).2
      unfold readFloat? at hx
      split at hx
      next r =>
        rw [looksNumeric_sign (Or.inl rfl)] at hlooks
        exact List.forall_mem_cons.mpr ⟨by decide, hmagnitude hlooks ⟨x, hx⟩⟩
      next r =>
        rw [looksNumeric_sign (Or.inr rfl)] at hlooks
        obtain ⟨y, hy, -⟩ := Option.map_eq_some_iff.mp hx
        exact List.forall_mem_cons.mpr ⟨by decide, hmagnitude hlooks ⟨y, hy⟩⟩
      next => exact hmagnitude hlooks ⟨x, hx⟩
  · exact nomatch h

/-- Whether a typed value is a number. -/
def Value.isNumber : Value → Bool
  | .integer _ => true
  | .float _ => true
  | _ => false

/-- **A finite number is converted to a number.** -/
theorem number?_of_readFloat? {x : Float} (h : readFloat? cs = some x) (hx : x.isFinite = true) :
    ∃ v, number? cs = some v ∧ v.isNumber = true := by
  have hlooks : looksNumeric cs = true := by
    unfold readFloat? at h
    split at h
    next r =>
      obtain ⟨d, hd⟩ := readDecimal?_of_finite h (Or.inl hx)
      exact (looksNumeric_sign (Or.inl rfl) _).trans (looksNumeric_of_readDecimal? hd)
    next r =>
      obtain ⟨y, hy, rfl⟩ := Option.map_eq_some_iff.mp h
      obtain ⟨d, hd⟩ := readDecimal?_of_finite hy (Or.inr hx)
      exact (looksNumeric_sign (Or.inr rfl) _).trans (looksNumeric_of_readDecimal? hd)
    next =>
      obtain ⟨d, hd⟩ := readDecimal?_of_finite h (Or.inl hx)
      exact looksNumeric_of_readDecimal? hd
  unfold number?
  rw [if_pos hlooks]
  split
  next n _ => exact ⟨.integer n, rfl, rfl⟩
  next => exact ⟨.float x, by rw [h]; rfl, rfl⟩

/-- **A byte is converted to the integer that it is.** -/
theorem number?_of_byte (h : readInteger? .byte cs = some n) :
    number? cs = some (.integer n) ∧ 0 ≤ n ∧ n ≤ 255 := by
  obtain ⟨hwide, hn⟩ := readInteger?_of_byte h
  refine ⟨?_, hn⟩
  rw [number?, if_pos (looksNumeric_of_readInteger? h), hwide]

/-- A number is neither of the truth values. -/
theorem ofPlain_of_number? {s : String} {v : Value} (h : number? s.toList = some v) :
    ofPlain s = v := by
  have hword : ∀ word : String, looksNumeric word.toList = false → s ≠ word := by
    rintro word hword rfl
    rw [number?, hword] at h
    exact nomatch h
  have htrue := hword "true" (by decide)
  have hfalse := hword "false" (by decide)
  rw [ofPlain, if_neg htrue, if_neg hfalse, h]
  rfl

end Toml

end ContentLang
