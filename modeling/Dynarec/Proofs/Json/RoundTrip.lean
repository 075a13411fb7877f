import Mathlib.Data.Option.Basic
import Dynarec.Json.Reader

/-!
# JSON text is read back

A value that is written without blanks is read back as it was (`JsonValue.ofText?_compact`), as long
as its numbers are naturals and its strings are texts.  The proof goes through the tokens: `Scanned
text tokens` says that a text is cut into tokens, and `JsonValue.tokens` are those of a value.
-/

namespace Dynarec

/-! ### Decimal digits -/

namespace Decimal

theorem digitValue_digit (n : Nat) : digitValue (digit n) = n % 10 := by
  have hall : ∀ k < 10, digitValue (Char.ofNat ('0'.toNat + k)) = k := by decide
  exact hall _ (Nat.mod_lt _ (by decide))

theorem isDigit_digit (n : Nat) : isDigit (digit n) = true := by
  have hall : ∀ k < 10, isDigit (Char.ofNat ('0'.toNat + k)) = true := by decide
  exact hall _ (Nat.mod_lt _ (by decide))

theorem digit_ne_zero {n : Nat} (hn : n % 10 ≠ 0) : digit n ≠ '0' := by
  have hall : ∀ k < 10, k ≠ 0 → Char.ofNat ('0'.toNat + k) ≠ '0' := by decide
  exact hall _ (Nat.mod_lt _ (by decide)) hn

theorem digits_of_lt {n : Nat} (h : n < 10) : digits n = [digit n] := by
  rw [digits, if_pos h]

theorem digits_of_ge {n : Nat} (h : 10 ≤ n) : digits n = digits (n / 10) ++ [digit n] := by
  rw [digits, if_neg (Nat.not_lt.mpr h)]

/-- **The digits of a number have its value.** -/
theorem value_digits (n : Nat) : value (digits n) = n := by
  induction n using Nat.strongRecOn with
  | ind n ih =>
    rcases Nat.lt_or_ge n 10 with h | h
    · rw [digits_of_lt h, value, List.foldl_cons, List.foldl_nil, digitValue_digit, Nat.zero_mul,
        Nat.zero_add, Nat.mod_eq_of_lt h]
    · have hrest := ih (n / 10) (by omega)
      rw [value] at hrest
      rw [digits_of_ge h, value, List.foldl_append, hrest, List.foldl_cons, List.foldl_nil,
        digitValue_digit]
      omega

theorem all_isDigit_digits (n : Nat) : ∀ c ∈ digits n, isDigit c = true := by
  induction n using Nat.strongRecOn with
  | ind n ih =>
    intro c hc
    rcases Nat.lt_or_ge n 10 with h | h
    · rw [digits_of_lt h, List.mem_singleton] at hc
      exact hc ▸ isDigit_digit n
    · rw [digits_of_ge h, List.mem_append, List.mem_singleton] at hc
      rcases hc with hc | hc
      · exact ih (n / 10) (by omega) c hc
      · exact hc ▸ isDigit_digit n

theorem digits_ne_nil (n : Nat) : digits n ≠ [] := by
  rcases Nat.lt_or_ge n 10 with h | h
  · rw [digits_of_lt h]
    exact nofun
  · rw [digits_of_ge h]
    exact List.append_ne_nil_of_right_ne_nil _ nofun

/-- The first digit of a number is a zero only if the number is. -/
theorem head?_digits_ne_zero {n : Nat} (hn : n ≠ 0) : (digits n).head? ≠ some '0' := by
  induction n using Nat.strongRecOn with
  | ind n ih =>
    rcases Nat.lt_or_ge n 10 with h | h
    · rw [digits_of_lt h, List.head?_cons]
      exact fun heq => digit_ne_zero (by omega) (Option.some.inj heq)
    · obtain ⟨c, l, hdigits⟩ := List.exists_cons_of_ne_nil (digits_ne_nil (n / 10))
      have hrest := ih (n / 10) (by omega) (by omega)
      rw [digits_of_ge h]
      rw [hdigits] at hrest ⊢
      exact hrest

/-- **A number is written with no digit more than it needs.** -/
theorem plain_digits (n : Nat) : (digits n).head? ≠ some '0' ∨ (digits n).length = 1 := by
  by_cases hn : n = 0
  · rw [hn, digits_of_lt (by decide)]
    exact .inr rfl
  · exact .inl (head?_digits_ne_zero hn)

end Decimal

/-! ### Tokens -/

namespace JsonToken

variable {text rest : List Char} {tokens : List JsonToken} {c : Char}

/-- **A text is cut into tokens**, whatever number of steps is allowed beyond its length. -/
def Scanned (text : List Char) (tokens : List JsonToken) : Prop :=
  ∀ fuel, text.length ≤ fuel → readAll fuel text = some tokens

theorem Scanned.ofChars? (h : Scanned text tokens) : ofChars? text = some tokens :=
  h _ (Nat.le_refl _)

theorem scanned_nil : Scanned [] [] := fun fuel _ => by cases fuel <;> rfl

/-- **A token in front.**  It has one character at least, and the first of them is no blank. -/
theorem scanned_cons {token : JsonToken} (hblank : isBlank c = false)
    (hread : readToken (c :: text) = some (token, rest)) (hlength : rest.length ≤ text.length)
    (hrest : Scanned rest tokens) : Scanned (c :: text) (token :: tokens) := by
  intro fuel hfuel
  cases fuel with
  | zero => exact absurd hfuel (Nat.not_succ_le_zero _)
  | succ fuel =>
    have htail := hrest fuel (Nat.le_trans hlength (Nat.le_of_succ_le_succ hfuel))
    rw [readAll, List.dropWhile_cons_of_neg (by rw [hblank]; decide)]
    simp only [hread, htail, bind, Option.bind, pure]

theorem isBlank_of_isMark (h : isMark c = true) : isBlank c = false := by
  simp only [isMark, Bool.or_eq_true, decide_eq_true_eq] at h
  rcases h with ((((h | h) | h) | h) | h) | h <;> subst h <;> decide

/-- A bracket, a colon or a comma. -/
theorem scanned_mark (hc : isMark c = true) (hrest : Scanned rest tokens) :
    Scanned (c :: rest) (.mark c :: tokens) := by
  refine scanned_cons (isBlank_of_isMark hc) ?_ (Nat.le_refl _) hrest
  rw [readToken, if_pos hc]

/-- A fixed word. -/
theorem scanned_null (hrest : Scanned rest tokens) :
    Scanned ("null".toList ++ rest) (.null :: tokens) :=
  scanned_cons (c := 'n') (by decide) rfl (Nat.le_add_right _ 3) hrest

theorem scanned_true (hrest : Scanned rest tokens) :
    Scanned ("true".toList ++ rest) (.bool true :: tokens) :=
  scanned_cons (c := 't') (by decide) rfl (Nat.le_add_right _ 3) hrest

theorem scanned_false (hrest : Scanned rest tokens) :
    Scanned ("false".toList ++ rest) (.bool false :: tokens) :=
  scanned_cons (c := 'f') (by decide) rfl (Nat.le_add_right _ 4) hrest

/-! ### Numbers -/

/-- **A value may end here**: the text goes on with a bracket or a comma, if it does. -/
def Ended (text : List Char) : Prop := ∀ c, text.head? = some c → isMark c = true

theorem ended_nil : Ended [] := nofun

theorem ended_cons (hc : isMark c = true) : Ended (c :: rest) := fun _ h =>
  Option.some.inj h ▸ hc

theorem not_isMark_of_isDigit (h : Decimal.isDigit c = true) : isMark c = false := by
  rw [← Bool.not_eq_true]
  intro hmark
  simp only [isMark, Bool.or_eq_true, decide_eq_true_eq] at hmark
  rcases hmark with ((((hc | hc) | hc) | hc) | hc) | hc <;> subst hc <;> exact absurd h (by decide)

theorem not_isBlank_of_isDigit (h : Decimal.isDigit c = true) : isBlank c = false := by
  rw [← Bool.not_eq_true]
  intro hblank
  simp only [isBlank, Bool.or_eq_true, decide_eq_true_eq] at hblank
  rcases hblank with ((hc | hc) | hc) | hc <;> subst hc <;> exact absurd h (by decide)

theorem ne_of_isDigit {d : Char} (h : Decimal.isDigit c = true) (hd : Decimal.isDigit d = false) :
    c ≠ d := fun heq => by
  rw [heq, hd] at h
  cases h

theorem takeWhile_digits (n : Nat) (hend : Ended rest) :
    (Decimal.digits n ++ rest).takeWhile Decimal.isDigit = Decimal.digits n ∧
      (Decimal.digits n ++ rest).dropWhile Decimal.isDigit = rest := by
  have hall := Decimal.all_isDigit_digits n
  have hrest : rest.takeWhile Decimal.isDigit = [] ∧ rest.dropWhile Decimal.isDigit = rest := by
    cases rest with
    | nil => exact ⟨rfl, rfl⟩
    | cons c rest =>
      have hc : ¬ Decimal.isDigit c = true := fun hdigit => by
        have hmark := hend c rfl
        rw [not_isMark_of_isDigit hdigit] at hmark
        cases hmark
      exact ⟨List.takeWhile_cons_of_neg hc, List.dropWhile_cons_of_neg hc⟩
  rw [List.takeWhile_append_of_pos hall, List.dropWhile_append_of_pos hall, hrest.1, hrest.2,
    List.append_nil]
  exact ⟨rfl, rfl⟩

theorem readIntegral_digits (n : Nat) (hend : Ended rest) :
    readIntegral (Decimal.digits n ++ rest) = some (Decimal.digits n, rest) := by
  obtain ⟨htake, hdrop⟩ := takeWhile_digits n hend
  have hne : (Decimal.digits n).isEmpty = false :=
    List.isEmpty_eq_false_iff.mpr (Decimal.digits_ne_nil n)
  rw [readIntegral, readDigits, htake, hdrop, hne]
  simp [guard, Decimal.plain_digits n]

theorem readFraction_ended (hend : Ended rest) : readFraction rest = some ([], rest) := by
  unfold readFraction
  split
  · exact absurd (hend '.' rfl) (by decide)
  · rfl

theorem readExponent_ended (hend : Ended rest) : readExponent rest = some ([], rest) := by
  cases rest with
  | nil => rfl
  | cons c rest =>
    have hc := hend c rfl
    have hne : ¬ (decide (c = 'e') || decide (c = 'E')) = true := fun h => by
      rcases Bool.or_eq_true_iff.mp h with h | h <;> rw [of_decide_eq_true h] at hc <;>
        exact absurd hc (by decide)
    rw [readExponent, if_neg hne]

theorem readNumber_digits (n : Nat) (hend : Ended rest) :
    readNumber (Decimal.digits n ++ rest) = some (.number (Decimal.digits n), rest) := by
  have hsign : ∀ r, Decimal.digits n ++ rest ≠ '-' :: r := fun r heq => by
    obtain ⟨c, l, hdigits⟩ := List.exists_cons_of_ne_nil (Decimal.digits_ne_nil n)
    rw [hdigits, List.cons_append] at heq
    have hc := Decimal.all_isDigit_digits n c (hdigits ▸ List.mem_cons_self)
    exact ne_of_isDigit hc (by decide) (List.cons.inj heq).1
  unfold readNumber
  split
  rename_i sign rest' hmatch
  split at hmatch
  · rename_i heq
    exact absurd heq (hsign _)
  · cases hmatch
    simp [readIntegral_digits n hend, readFraction_ended hend, readExponent_ended hend]

/-- **A natural number.** -/
theorem scanned_number (n : Nat) (hend : Ended rest) (hrest : Scanned rest tokens) :
    Scanned (Decimal.digits n ++ rest) (.number (Decimal.digits n) :: tokens) := by
  have hread := readNumber_digits n hend
  obtain ⟨c, l, hdigits⟩ := List.exists_cons_of_ne_nil (Decimal.digits_ne_nil n)
  have hc := Decimal.all_isDigit_digits n c (hdigits ▸ List.mem_cons_self)
  have hne : ∀ d, Decimal.isDigit d = false → c ≠ d := fun d => ne_of_isDigit hc
  rw [hdigits, List.cons_append] at hread ⊢
  refine scanned_cons (not_isBlank_of_isDigit hc) ?_ ?_ hrest
  · rw [readToken, not_isMark_of_isDigit hc, if_neg (by decide), if_neg (hne _ (by decide)),
      if_neg (hne _ (by decide)), if_neg (hne _ (by decide)), if_neg (hne _ (by decide))]
    exact hread
  · rw [List.length_append]
    exact Nat.le_add_left _ _

/-! ### Strings -/

/-- The value of a lower-case digit. -/
theorem value?_digit : ∀ n < 16, Hex.value? (Hex.digit n) = some n := by decide

/-- Four digits of a unit. -/
theorem hexUnit?_digits {n : Nat} (hn : n < 0x20) :
    ∃ a b c d, Hex.digits 4 n = [a, b, c, d] ∧ hexUnit? a b c d = some n := by
  refine ⟨_, _, _, _, rfl, ?_⟩
  rw [hexUnit?, value?_digit _ (Nat.mod_lt _ (by decide)), value?_digit _ (Nat.mod_lt _ (by decide)),
    value?_digit _ (Nat.mod_lt _ (by decide)), value?_digit _ (Nat.mod_lt _ (by decide))]
  simp only [bind, Option.bind, pure]
  congr 1
  omega

/-- **An escaped character is one unit.** -/
theorem readUnits_escape {units : List Unit16} {text rest' : List Char} (c : Char)
    (hrest : readUnits text = some (units, rest')) :
    readUnits (JsonValue.escape c ++ text) = some (c.toNat :: units, rest') := by
  have hsimple : ∀ d e, d ≠ 'u' → simpleEscape? d = some e →
      readUnits ('\\' :: d :: text) = some (e.toNat :: units, rest') := fun d e hd he => by
    rw [readUnits.eq_def]
    split
    · rename_i heq
      cases heq
    · rename_i heq
      cases heq
      exact absurd rfl hd
    · rename_i heq
      cases heq
      simp [he, hrest]
    · rename_i hne heq
      cases heq
      exact (hne _ _ rfl rfl).elim
    · rename_i heq
      cases heq
  unfold JsonValue.escape
  split
  · exact hsimple '"' '"' (by decide) rfl
  · exact hsimple '\\' '\\' (by decide) rfl
  · exact hsimple 'n' '\n' (by decide) rfl
  · exact hsimple 'r' '\r' (by decide) rfl
  · exact hsimple 't' '\t' (by decide) rfl
  · rename_i hquote hslash _ _ _
    split
    · rename_i hcontrol
      obtain ⟨x, y, z, w, hdigits, hunit⟩ := hexUnit?_digits hcontrol
      rw [hdigits]
      show readUnits ('\\' :: 'u' :: x :: y :: z :: w :: text) = _
      rw [readUnits, hunit, hrest]
      rfl
    · rename_i hcontrol
      show readUnits (c :: text) = _
      rw [readUnits.eq_def]
      split
      · rename_i heq
        exact absurd (List.cons.inj heq).1 hquote
      · rename_i heq
        exact absurd (List.cons.inj heq).1 hslash
      · rename_i heq
        exact absurd (List.cons.inj heq).1 hslash
      · rename_i heq
        cases heq
        simp [guard, Nat.le_of_not_lt hcontrol, hrest]
      · rename_i heq
        cases heq

theorem readUnits_escaped (cs text : List Char) :
    readUnits (cs.flatMap JsonValue.escape ++ '"' :: text) = some (cs.map Char.toNat, text) := by
  induction cs with
  | nil => rfl
  | cons c cs ih =>
    rw [List.flatMap_cons, List.append_assoc, readUnits_escape c ih, List.map_cons]

/-- No character is half of a surrogate pair. -/
theorem isHigh_toNat (c : Char) : isHigh c.toNat = false ∧ isLow c.toNat = false := by
  have hvalid : c.toNat < 0xD800 ∨ 0xDFFF < c.toNat ∧ c.toNat < 0x110000 := c.valid
  simp only [isHigh, isLow, Bool.and_eq_false_iff, decide_eq_false_iff_not, Nat.not_le]
  exact ⟨hvalid.imp_right fun h => Nat.lt_trans (by decide) h.1,
    hvalid.imp (fun h => Nat.lt_trans h (by decide)) And.left⟩

/-- **Characters are their own units.** -/
theorem joinUnits_toNat (cs : List Char) : joinUnits (cs.map Char.toNat) = some cs := by
  induction cs with
  | nil => rfl
  | cons c cs ih =>
    obtain ⟨hhigh, hlow⟩ := isHigh_toNat c
    cases cs with
    | nil => simp [joinUnits, hhigh, hlow, Char.ofNat_toNat]
    | cons d cs =>
      rw [List.map_cons] at ih
      rw [List.map_cons, List.map_cons, joinUnits, hhigh, hlow, ih]
      simp [Char.ofNat_toNat]

/-- **A string.** -/
theorem scanned_string (cs : List Char) (hrest : Scanned rest tokens) :
    Scanned ('"' :: (cs.flatMap JsonValue.escape ++ '"' :: rest)) (.string (some cs) :: tokens) := by
  refine scanned_cons (by decide) ?_ ?_ hrest
  · rw [readToken, if_neg (by decide), if_pos rfl, readString, readUnits_escaped, Option.map_some]
    dsimp only
    rw [joinUnits_toNat]
  · rw [List.length_append, List.length_cons]
    omega

end JsonToken

/-! ### Values -/

namespace JsonValue

open JsonToken

mutual

/-- **Numbers are naturals and strings are texts.** -/
def Plain : JsonValue → Prop
  | null | bool _ => True
  | number literal => ∃ n, literal = Decimal.text n
  | string text => text.isSome = true
  | array items => AllPlain items
  | object fields => FieldsPlain fields

/-- All items are plain. -/
def AllPlain : List JsonValue → Prop
  | [] => True
  | item :: rest => Plain item ∧ AllPlain rest

/-- All fields are plain, and their keys are texts. -/
def FieldsPlain : List (Option String × JsonValue) → Prop
  | [] => True
  | (key, value) :: rest => key.isSome = true ∧ Plain value ∧ FieldsPlain rest

end

mutual

/-- The tokens of a value. -/
def tokens : JsonValue → List JsonToken
  | null => [.null]
  | bool b => [.bool b]
  | number literal => [.number literal.toList]
  | string text => [.string (text.map String.toList)]
  | array items => .mark '[' :: itemTokens items
  | object fields => .mark '\x7b' :: fieldTokens fields

/-- The tokens of items, and the closing bracket. -/
def itemTokens : List JsonValue → List JsonToken
  | [] => [.mark ']']
  | [item] => tokens item ++ [.mark ']']
  | item :: rest => tokens item ++ .mark ',' :: itemTokens rest

/-- The tokens of fields, and the closing brace. -/
def fieldTokens : List (Option String × JsonValue) → List JsonToken
  | [] => [.mark '\x7d']
  | [(key, value)] => .string (key.map String.toList) :: .mark ':' :: (tokens value ++ [.mark '\x7d'])
  | (key, value) :: rest =>
    .string (key.map String.toList) :: .mark ':' :: (tokens value ++ .mark ',' :: fieldTokens rest)

end

theorem itemTokens_cons_cons (item next : JsonValue) (rest : List JsonValue) :
    itemTokens (item :: next :: rest) = tokens item ++ .mark ',' :: itemTokens (next :: rest) := by
  rw [itemTokens]
  exact nofun

theorem fieldTokens_cons_cons (key : Option String) (value : JsonValue)
    (next : Option String × JsonValue) (rest : List (Option String × JsonValue)) :
    fieldTokens ((key, value) :: next :: rest) = .string (key.map String.toList) :: .mark ':' ::
      (tokens value ++ .mark ',' :: fieldTokens (next :: rest)) := by
  rw [fieldTokens]
  exact nofun

/-! ### Cutting the text of a value into tokens -/

theorem separated_cons_cons (separator item next : List Char) (rest : List (List Char)) :
    separated separator (item :: next :: rest) =
      item ++ separator ++ separated separator (next :: rest) := rfl

theorem scanned_quote {rest : List Char} {after : List JsonToken} {text : Option String}
    (htext : text.isSome = true) (hrest : Scanned rest after) :
    Scanned (quote text ++ rest) (.string (text.map String.toList) :: after) := by
  obtain ⟨text, rfl⟩ := Option.isSome_iff_exists.mp htext
  rw [quote, List.cons_append, List.append_assoc]
  exact scanned_string text.toList hrest

mutual

/-- **The text of a value is cut into its tokens.** -/
theorem scanned_compact {rest : List Char} {after : List JsonToken} (v : JsonValue) (hv : v.Plain)
    (hend : Ended rest) (hrest : Scanned rest after) :
    Scanned (compactChars v ++ rest) (tokens v ++ after) := by
  cases v with
  | null => exact scanned_null hrest
  | bool b =>
    cases b with
    | true => exact scanned_true hrest
    | false => exact scanned_false hrest
  | number literal =>
    obtain ⟨n, rfl⟩ := hv
    rw [compactChars, tokens, Decimal.text, String.toList_ofList]
    exact scanned_number n hend hrest
  | string text => exact scanned_quote hv hrest
  | array items =>
    rw [compactChars, bracket, tokens, List.cons_append, List.append_assoc]
    exact scanned_mark (by decide) (scanned_items items hv hrest)
  | object fields =>
    rw [compactChars, bracket, tokens, List.cons_append, List.append_assoc]
    exact scanned_mark (by decide) (scanned_fields fields hv hrest)

/-- The text of items, up to the closing bracket. -/
theorem scanned_items {rest : List Char} {after : List JsonToken} (items : List JsonValue)
    (hv : AllPlain items) (hrest : Scanned rest after) :
    Scanned (separated [','] (compactItems items) ++ ([']'] ++ rest)) (itemTokens items ++ after) := by
  have hclose : Scanned (']' :: rest) (.mark ']' :: after) := scanned_mark (by decide) hrest
  cases items with
  | nil => exact hclose
  | cons item items =>
    cases items with
    | nil =>
      rw [compactItems, compactItems, separated, itemTokens, List.append_assoc]
      exact scanned_compact item hv.1 (ended_cons (by decide)) hclose
    | cons next items =>
      have hnext := scanned_mark (c := ',') (by decide) (scanned_items (next :: items) hv.2 hrest)
      rw [itemTokens_cons_cons, compactItems, compactItems, separated_cons_cons, ← compactItems,
        List.append_assoc, List.append_assoc, List.append_assoc]
      exact scanned_compact item hv.1 (ended_cons (by decide)) hnext

/-- The text of fields, up to the closing brace. -/
theorem scanned_fields {rest : List Char} {after : List JsonToken}
    (fields : List (Option String × JsonValue)) (hv : FieldsPlain fields) (hrest : Scanned rest after) :
    Scanned (separated [','] (compactFields fields) ++ (['\x7d'] ++ rest))
      (fieldTokens fields ++ after) := by
  have hclose : Scanned ('\x7d' :: rest) (.mark '\x7d' :: after) := scanned_mark (by decide) hrest
  cases fields with
  | nil => exact hclose
  | cons field fields =>
    obtain ⟨key, value⟩ := field
    have hkey : ∀ {rest after}, Ended rest → Scanned rest after →
        Scanned (quote key ++ ':' :: (compactChars value ++ rest))
          (.string (key.map String.toList) :: .mark ':' :: (tokens value ++ after)) :=
      fun hend hrest => scanned_quote hv.1
        (scanned_mark (by decide) (scanned_compact value hv.2.1 hend hrest))
    cases fields with
    | nil =>
      rw [compactFields, compactFields, separated, fieldTokens, List.append_assoc]
      simp only [List.cons_append, List.append_assoc]
      exact hkey (ended_cons (by decide)) hclose
    | cons next fields =>
      have hnext := scanned_mark (c := ',') (by decide) (scanned_fields (next :: fields) hv.2.2 hrest)
      obtain ⟨key', value'⟩ := next
      rw [fieldTokens_cons_cons, compactFields, compactFields, separated_cons_cons, ← compactFields]
      simp only [List.cons_append, List.append_assoc]
      exact hkey (ended_cons (by decide)) hnext

end

/-! ### Reading the tokens of a value -/

/-- A value does not start with a closing bracket. -/
theorem exists_tokens (v : JsonValue) :
    ∃ token more, tokens v = token :: more ∧ token ≠ .mark ']' := by
  cases v <;> exact ⟨_, _, rfl, nofun⟩

theorem length_tokens_pos (v : JsonValue) : 0 < (tokens v).length := by
  obtain ⟨token, more, htokens, -⟩ := v.exists_tokens
  rw [htokens]
  exact Nat.succ_pos _

/-- A list that is not empty starts with a token other than the closing bracket. -/
theorem readValue_items {fuel : Nat} {after : List JsonToken} (item : JsonValue)
    (items : List JsonValue) :
    readValue (fuel + 1) (.mark '[' :: (itemTokens (item :: items) ++ after)) = (do
      let (items, rest) ← readItems fuel (itemTokens (item :: items) ++ after)
      return (array items, rest)) := by
  obtain ⟨token, more, htokens, hne⟩ := item.exists_tokens
  have hstart : ∃ more, itemTokens (item :: items) ++ after = token :: more := by
    cases items with
    | nil => exact ⟨_, by rw [itemTokens, htokens]; rfl⟩
    | cons next items => exact ⟨_, by rw [itemTokens_cons_cons, htokens]; rfl⟩
  obtain ⟨more, hstart⟩ := hstart
  rw [hstart, readValue]
  exact fun rest heq => hne (List.cons.inj heq).1

/-- An object that is not empty starts with a key. -/
theorem readValue_fields {fuel : Nat} {after : List JsonToken} (field : Option String × JsonValue)
    (fields : List (Option String × JsonValue)) :
    readValue (fuel + 1) (.mark '\x7b' :: (fieldTokens (field :: fields) ++ after)) = (do
      let (fields, rest) ← readFields fuel (fieldTokens (field :: fields) ++ after)
      return (object fields, rest)) := by
  obtain ⟨key, value⟩ := field
  have hstart : ∃ more, fieldTokens ((key, value) :: fields) ++ after =
      .string (key.map String.toList) :: more := by
    cases fields with
    | nil => exact ⟨_, by rw [fieldTokens]; rfl⟩
    | cons next fields => exact ⟨_, by rw [fieldTokens_cons_cons]; rfl⟩
  obtain ⟨more, hstart⟩ := hstart
  rw [hstart, readValue]
  exact fun rest heq => nomatch (List.cons.inj heq).1

theorem map_ofList_toList (text : Option String) :
    (text.map String.toList).map String.ofList = text := by
  cases text with
  | none => rfl
  | some text => rw [Option.map_some, Option.map_some, String.ofList_toList]

mutual

/-- **The tokens of a value are read as the value.** -/
theorem readValue_tokens {fuel : Nat} {after : List JsonToken} (v : JsonValue)
    (hfuel : 2 * (tokens v).length ≤ fuel + 1) :
    readValue fuel (tokens v ++ after) = some (v, after) := by
  have hpos := v.length_tokens_pos
  obtain ⟨fuel, rfl⟩ : ∃ k, fuel = k + 1 := Nat.exists_eq_succ_of_ne_zero (by omega)
  cases v with
  | null => rfl
  | bool b => rfl
  | number literal =>
    rw [tokens, List.singleton_append, readValue, String.ofList_toList]
  | string text =>
    rw [tokens, List.singleton_append, readValue, map_ofList_toList]
  | array items =>
    rw [tokens, List.length_cons] at hfuel
    cases items with
    | nil => rfl
    | cons item items =>
      rw [tokens, List.cons_append, readValue_items, readItems_tokens item items (by omega)]
      rfl
  | object fields =>
    rw [tokens, List.length_cons] at hfuel
    cases fields with
    | nil => rfl
    | cons field fields =>
      rw [tokens, List.cons_append, readValue_fields, readFields_tokens field fields (by omega)]
      rfl

/-- The tokens of items are read as the items. -/
theorem readItems_tokens {fuel : Nat} {after : List JsonToken} (item : JsonValue)
    (items : List JsonValue) (hfuel : 2 * (itemTokens (item :: items)).length ≤ fuel + 2) :
    readItems fuel (itemTokens (item :: items) ++ after) = some (item :: items, after) := by
  have hpos := item.length_tokens_pos
  cases items with
  | nil =>
    rw [itemTokens, List.length_append, List.length_singleton] at hfuel
    obtain ⟨fuel, rfl⟩ : ∃ k, fuel = k + 1 := Nat.exists_eq_succ_of_ne_zero (by omega)
    rw [itemTokens, List.append_assoc, readItems, readValue_tokens item (by omega)]
    rfl
  | cons next items =>
    rw [itemTokens_cons_cons, List.length_append, List.length_cons] at hfuel
    obtain ⟨fuel, rfl⟩ : ∃ k, fuel = k + 1 := Nat.exists_eq_succ_of_ne_zero (by omega)
    have hrest : readItems fuel (itemTokens (next :: items) ++ after) = some (next :: items, after) :=
      readItems_tokens next items (by omega)
    rw [itemTokens_cons_cons, List.append_assoc, readItems, readValue_tokens item (by omega)]
    simp only [List.cons_append, hrest, bind, Option.bind, pure]

/-- The tokens of fields are read as the fields. -/
theorem readFields_tokens {fuel : Nat} {after : List JsonToken} (field : Option String × JsonValue)
    (fields : List (Option String × JsonValue))
    (hfuel : 2 * (fieldTokens (field :: fields)).length ≤ fuel + 2) :
    readFields fuel (fieldTokens (field :: fields) ++ after) = some (field :: fields, after) := by
  obtain ⟨key, value⟩ := field
  have hpos := value.length_tokens_pos
  cases fields with
  | nil =>
    rw [fieldTokens, List.length_cons, List.length_cons, List.length_append,
      List.length_singleton] at hfuel
    obtain ⟨fuel, rfl⟩ : ∃ k, fuel = k + 1 := Nat.exists_eq_succ_of_ne_zero (by omega)
    rw [fieldTokens, List.cons_append, List.cons_append, List.append_assoc, readFields,
      readValue_tokens value (by omega), map_ofList_toList]
    rfl
  | cons next fields =>
    rw [fieldTokens_cons_cons, List.length_cons, List.length_cons, List.length_append,
      List.length_cons] at hfuel
    obtain ⟨fuel, rfl⟩ : ∃ k, fuel = k + 1 := Nat.exists_eq_succ_of_ne_zero (by omega)
    have hrest : readFields fuel (fieldTokens (next :: fields) ++ after) =
        some (next :: fields, after) :=
      readFields_tokens next fields (by omega)
    rw [fieldTokens_cons_cons, List.cons_append, List.cons_append, List.append_assoc, readFields,
      readValue_tokens value (by omega), map_ofList_toList]
    simp only [List.cons_append, hrest, bind, Option.bind, pure]

end

/-- **A value without blanks is read back.** -/
theorem ofText?_compact {v : JsonValue} (hv : v.Plain) : ofText? v.compact = some v := by
  have htokens : ofChars? v.compactChars = some (tokens v) := by
    have hscanned := scanned_compact v hv ended_nil scanned_nil
    rw [List.append_nil, List.append_nil] at hscanned
    exact hscanned.ofChars?
  have hread : readValue (2 * (tokens v).length + 1) (tokens v) = some (v, []) := by
    have hread : readValue (2 * (tokens v).length + 1) (tokens v ++ []) = some (v, []) :=
      readValue_tokens v (Nat.le_add_right _ 2)
    rwa [List.append_nil] at hread
  rw [ofText?, compact, String.toList_ofList, htokens]
  show ofTokens? (tokens v) = some v
  rw [ofTokens?, hread]

end JsonValue

end Dynarec
