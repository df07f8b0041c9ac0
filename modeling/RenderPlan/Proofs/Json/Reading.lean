/-
# RenderPlan.Proofs.Json.Reading -- what is spelled is read

Whatever the grammar spells, the parser reads, and it reads what is meant (`parse?_of_holds`). The scanners
hand back what is left of the text, so each lemma is about a part with more text behind it. Only the end
of a number depends on what follows: `Apart` says that no digit, point or exponent does. Values are scanned
with a bound that counts down; twice the length of what is to be read is enough.
-/
import RenderPlan.Proofs.Json.Grammar
import Mathlib.Data.List.DropRight

namespace RenderPlan.Json

/-! ## White space -/

theorem isSpace_iff {c : Char} : isSpace c = true ↔ c ∈ blanks := by
  simp [isSpace, blanks, or_assoc]

theorem skipSpace_blank {ws : List Char} (h : Blank ws) (rest : List Char) :
    skipSpace (ws ++ rest) = skipSpace rest :=
  List.dropWhile_append_of_pos fun c hc => isSpace_iff.mpr (h c hc)

theorem skipSpace_cons {c : Char} (h : isSpace c = false) (rest : List Char) :
    skipSpace (c :: rest) = c :: rest :=
  List.dropWhile_cons_of_neg (by simp [h])

theorem skipSpace_skipSpace (cs : List Char) : skipSpace (skipSpace cs) = skipSpace cs :=
  List.dropWhile_idempotent isSpace cs

/-- What follows ends a number. -/
def Apart (rest : List Char) : Prop := ∀ c ∈ rest.head?, c ∈ blanks ++ [',', ']', '}']

/-- Nothing follows, or a sign that ends a list or its item. -/
def Stops (rest : List Char) : Prop := ∀ c ∈ rest.head?, c ∈ [',', ']', '}']

theorem Stops.apart {rest : List Char} (h : Stops rest) : Apart rest :=
  fun c hc => List.mem_append_right blanks (h c hc)

theorem Stops.skipSpace {rest : List Char} (h : Stops rest) : skipSpace rest = rest := by
  cases rest with
  | nil => rfl
  | cons c rest =>
      have hstop : ∀ c ∈ [',', ']', '}'], isSpace c = false := by simp [isSpace]
      exact skipSpace_cons (hstop c (h c rfl)) rest

theorem apart_blank {ws rest : List Char} (hws : Blank ws) (h : Stops rest) : Apart (ws ++ rest) := by
  cases ws with
  | nil => exact h.apart
  | cons c ws =>
      rintro d ⟨⟩
      exact List.mem_append_left [',', ']', '}'] (hws c List.mem_cons_self)

/-! ## Numbers -/

/-- The scanner takes all digits, up to something else. -/
theorem spanDigits_append {ds rest : List Char} (hds : ∀ d ∈ ds, d.isDigit = true)
    (hrest : ∀ c ∈ rest.head?, c.isDigit = false) : spanDigits (ds ++ rest) = (ds, rest) := by
  have htail : rest.takeWhile Char.isDigit = [] ∧ rest.dropWhile Char.isDigit = rest := by
    cases rest with
    | nil => exact ⟨rfl, rfl⟩
    | cons c rest =>
        have hc : ¬ c.isDigit = true := by simp [hrest c rfl]
        exact ⟨List.takeWhile_cons_of_neg hc, List.dropWhile_cons_of_neg hc⟩
  rw [spanDigits, List.takeWhile_append_of_pos hds, List.dropWhile_append_of_pos hds, htail.1, htail.2,
    List.append_nil]

theorem scanWhole?_append {ds rest : List Char} (h : Whole ds)
    (hrest : ∀ c ∈ rest.head?, c.isDigit = false) : scanWhole? (ds ++ rest) = some (ds, rest) := by
  rw [scanWhole?, spanDigits_append h.digits hrest]
  split
  · next heq => exact absurd (congrArg Prod.fst heq) h.nonempty
  · next heq =>
      cases heq
      cases h.zero rfl
  · rfl

theorem scanPlaces?_append {cs rest : List Char} {places : Option (List Char)} (h : Places cs places)
    (hrest : ∀ c ∈ rest.head?, c.isDigit = false) (hpoint : ∀ c ∈ rest.head?, c ≠ '.') :
    scanPlaces? (cs ++ rest) = some (places, rest) := by
  cases h with
  | absent =>
      cases rest with
      | nil => rfl
      | cons c rest =>
          rw [List.nil_append, scanPlaces?]
          rintro rest ⟨⟩
          exact hpoint '.' rfl rfl
  | present hds =>
      simp only [List.cons_append, scanPlaces?, spanDigits_append hds.digits hrest]
      split
      · next heq => exact absurd (congrArg Prod.fst heq) hds.nonempty
      · next heq => cases heq; rfl

/-- The scanner of an exponent behind its mark. -/
theorem scanExponent?_mark {mark d : Char} {cs ds sign rest : List Char} {s : Int}
    (hmark : mark = 'e' ∨ mark = 'E') (hsign : ExponentSign sign s) (hd : d.isDigit = true)
    (hspan : spanDigits (d :: cs) = (d :: ds, rest)) :
    scanExponent? (mark :: (sign ++ d :: cs)) = some (some (s * digitsValue (d :: ds)), rest) := by
  unfold scanExponent?
  simp only [if_pos hmark]
  cases hsign with
  | plus => simp only [List.cons_append, List.nil_append, hspan]
  | minus => simp only [List.cons_append, List.nil_append, hspan]
  | absent =>
      have hplus : d ≠ '+' := by rintro rfl; exact absurd hd (by decide)
      have hminus : d ≠ '-' := by rintro rfl; exact absurd hd (by decide)
      simp [hplus, hminus, hspan]

theorem scanExponent?_append {cs rest : List Char} {exponent : Option Int} (h : Exponent cs exponent)
    (hrest : ∀ c ∈ rest.head?, c.isDigit = false) (hmark : ∀ c ∈ rest.head?, c ≠ 'e' ∧ c ≠ 'E') :
    scanExponent? (cs ++ rest) = some (exponent, rest) := by
  cases h with
  | absent =>
      cases rest with
      | nil => rfl
      | cons c rest =>
          obtain ⟨hlower, hupper⟩ := hmark c rfl
          unfold scanExponent?
          exact if_neg (by simp [hlower, hupper])
  | @present mark sign ds s hmark hsign hds =>
      have hspan := spanDigits_append hds.digits hrest
      cases ds with
      | nil => exact absurd rfl hds.nonempty
      | cons d ds =>
          have hd := hds.digits d List.mem_cons_self
          rw [List.cons_append, List.append_assoc]
          exact scanExponent?_mark hmark hsign hd hspan

/-- A number is read up to a character that is no part of it. -/
theorem scanNumber?_append {cs rest : List Char} {j : Json} (h : Number cs j) (hrest : Apart rest) :
    scanNumber? (cs ++ rest) = some (j, rest) := by
  have hdigit : ∀ c ∈ blanks ++ [',', ']', '}'], c.isDigit = false := by simp [blanks]
  have hpoint : ∀ c ∈ blanks ++ [',', ']', '}'], c ≠ '.' := by simp [blanks]
  have hmark : ∀ c ∈ blanks ++ [',', ']', '}'], c ≠ 'e' ∧ c ≠ 'E' := by simp [blanks]
  cases h with
  | @mk whole point mark places exponent negative hwhole hplaces hexponent =>
      have hbehind : ∀ c ∈ (mark ++ rest).head?, c.isDigit = false ∧ c ≠ '.' := by
        cases hexponent with
        | absent => exact fun c hc => ⟨hdigit c (hrest c hc), hpoint c (hrest c hc)⟩
        | present hletter =>
            rintro c ⟨⟩
            rcases hletter with rfl | rfl <;> decide
      have hwholeEnd : ∀ c ∈ (point ++ (mark ++ rest)).head?, c.isDigit = false := by
        cases hplaces with
        | absent => exact fun c hc => (hbehind c hc).1
        | present =>
            rintro c ⟨⟩
            decide
      have hscan := scanWhole?_append hwhole hwholeEnd
      have hscanPlaces := scanPlaces?_append hplaces (fun c hc => (hbehind c hc).1)
        (fun c hc => (hbehind c hc).2)
      have hscanExponent := scanExponent?_append hexponent (fun c hc => hdigit c (hrest c hc))
        (fun c hc => hmark c (hrest c hc))
      cases negative with
      | true =>
          simp [scanNumber?, hscan, hscanPlaces, hscanExponent]
      | false =>
          cases whole with
          | nil => exact absurd rfl hwhole.nonempty
          | cons d ds =>
              have hminus : d ≠ '-' := by
                rintro rfl
                exact absurd (hwhole.digits '-' List.mem_cons_self) (by decide)
              rw [List.cons_append] at hscan
              simp [scanNumber?, hminus, hscan, hscanPlaces, hscanExponent]

/-! ## Texts -/

theorem scanCodes?_append {cs : List Char} {ns : List Nat} (h : Codes cs ns) (rest : List Char) :
    scanCodes? (cs ++ '"' :: rest) = some (ns, rest) := by
  induction h with
  | nil => rfl
  | @plain c cs ns hlow hquote hback _ ih =>
      have hplain : ¬ (c.toNat < 0x20 ∨ c = '\\') := by
        rintro (hlt | rfl)
        · omega
        · exact hback rfl
      rw [List.cons_append, scanCodes?, if_neg hplain, ih]
      · rfl
      · exact hquote
      · exact fun _ _ _ _ _ heq => absurd heq hback
      · exact fun _ _ heq => absurd heq hback
  | @escape letter c cs ns hmem _ ih =>
      have hletters : ∀ e ∈ escapes, e.1 ≠ 'u' ∧ escaped? e.1 = some e.2 := by decide
      obtain ⟨hletter, hescaped⟩ := hletters _ hmem
      rw [List.cons_append, List.cons_append, scanCodes?, hescaped, Option.bind_eq_bind,
        Option.bind_some, ih]
      · rfl
      · exact fun _ _ _ _ _ heq => absurd heq hletter
  | code hhex _ ih =>
      simp only [List.cons_append, scanCodes?, hhex, ih]
      rfl

/-! ### Codes and characters -/

/-- The code of a character is no half of a pair. -/
theorem not_half (c : Char) : isLeading c.toNat = false ∧ isTrailing c.toNat = false := by
  have hvalid : c.toNat < 0xD800 ∨ 0xDFFF < c.toNat ∧ c.toNat < 0x110000 := c.valid
  simp only [isLeading, isTrailing, Bool.and_eq_false_iff, decide_eq_false_iff_not]
  omega

theorem toNat_ofNat_of_valid {n : Nat} (h : n.isValidChar) : (Char.ofNat n).toNat = n := by
  rw [Char.ofNat, dif_pos h]
  rfl

/-- A code that is no half of a pair means a character. -/
theorem Decodes.code {n : Nat} {ns : List Nat} {cs : List Char} (h : Decodes ns cs)
    (hn : n < 0x110000) (hlead : isLeading n = false) (htrail : isTrailing n = false) :
    Decodes (n :: ns) (Char.ofNat n :: cs) := by
  have hvalid : n < 0xD800 ∨ 0xDFFF < n ∧ n < 0x110000 := by
    simp only [isLeading, isTrailing, Bool.and_eq_false_iff, decide_eq_false_iff_not] at hlead htrail
    omega
  have hone := Decodes.one (Char.ofNat n) h
  rwa [toNat_ofNat_of_valid hvalid] at hone

/-- Two halves mean a character. -/
theorem Decodes.halves {n m : Nat} {ns : List Nat} {cs : List Char} (h : Decodes ns cs)
    (hlead : isLeading n = true) (htrail : isTrailing m = true) :
    Decodes (n :: m :: ns) (Char.ofNat (0x10000 + (n - 0xD800) * 0x400 + (m - 0xDC00)) :: cs) := by
  simp only [isLeading, isTrailing, Bool.and_eq_true, decide_eq_true_eq] at hlead htrail
  obtain ⟨hhigh, hlow⟩ : n - 0xD800 < 0x400 ∧ m - 0xDC00 < 0x400 := by
    constructor <;> omega
  have hvalid : (0x10000 + (n - 0xD800) * 0x400 + (m - 0xDC00)).isValidChar := by
    refine .inr ⟨?_, ?_⟩ <;> omega
  have hchar := toNat_ofNat_of_valid hvalid
  have hpair := Decodes.pair _ hhigh hlow hchar h
  rwa [Nat.add_sub_cancel' hlead.1, Nat.add_sub_cancel' htrail.1] at hpair

theorem decodeCodes?_cons_char (c : Char) (ns : List Nat) :
    decodeCodes? (c.toNat :: ns) = (decodeCodes? ns).map (c :: ·) := by
  obtain ⟨hlead, htrail⟩ := not_half c
  cases ns with
  | nil => simp [decodeCodes?, hlead, htrail]
  | cons m ns => simp [decodeCodes?, hlead, htrail]

theorem decodeCodes?_pair {high low : Nat} (hhigh : high < 0x400) (hlow : low < 0x400) {c : Char}
    (hc : c.toNat = 0x10000 + high * 0x400 + low) (ns : List Nat) :
    decodeCodes? ((0xD800 + high) :: (0xDC00 + low) :: ns) = (decodeCodes? ns).map (c :: ·) := by
  have hlead : isLeading (0xD800 + high) = true := by
    simp only [isLeading, Bool.and_eq_true, decide_eq_true_eq]
    omega
  have htrail : isTrailing (0xDC00 + low) = true := by
    simp only [isTrailing, Bool.and_eq_true, decide_eq_true_eq]
    omega
  have hchar : Char.ofNat (0x10000 + (0xD800 + high - 0xD800) * 0x400 + (0xDC00 + low - 0xDC00)) = c := by
    rw [Nat.add_sub_cancel_left, Nat.add_sub_cancel_left, ← hc]
    exact Char.ofNat_toNat c
  simp only [decodeCodes?, hlead, htrail, if_true, hchar]

/-- Decoding finds the characters if there are any. -/
theorem decodeCodes?_eq_some_iff {ns : List Nat} (hns : ∀ n ∈ ns, n < 0x110000) {cs : List Char} :
    decodeCodes? ns = some cs ↔ Decodes ns cs := by
  constructor
  · intro h
    fun_induction decodeCodes? ns generalizing cs with
    | case1 =>
        cases h
        exact .nil
    | case2 n hhalf => cases h
    | case3 n hhalf =>
        cases h
        rw [Bool.not_eq_true, Bool.or_eq_false_iff] at hhalf
        exact Decodes.nil.code (hns n List.mem_cons_self) hhalf.1 hhalf.2
    | case4 n m rest hlead htrail ih =>
        obtain ⟨tail, htail, rfl⟩ := Option.map_eq_some_iff.mp h
        have hrest : ∀ k ∈ rest, k < 0x110000 := fun k hk =>
          hns k (List.mem_cons_of_mem _ (List.mem_cons_of_mem _ hk))
        exact (ih hrest htail).halves hlead htrail
    | case5 => cases h
    | case6 => cases h
    | case7 n m rest hlead htrail ih =>
        obtain ⟨tail, htail, rfl⟩ := Option.map_eq_some_iff.mp h
        rw [Bool.not_eq_true] at hlead htrail
        exact (ih (fun k hk => hns k (List.mem_cons_of_mem _ hk)) htail).code
          (hns n List.mem_cons_self) hlead htrail
  · intro h
    induction h with
    | nil => rfl
    | one c _ ih => rw [decodeCodes?_cons_char, ih fun n hn => hns n (List.mem_cons_of_mem _ hn)]; rfl
    | pair c hhigh hlow hc _ ih =>
        rw [decodeCodes?_pair hhigh hlow hc,
          ih fun n hn => hns n (List.mem_cons_of_mem _ (List.mem_cons_of_mem _ hn))]
        rfl

theorem hexValue?_lt {c : Char} {v : Nat} (h : Text.FlagTable.hexValue? c = some v) : v < 16 := by
  have hle : ∀ {d : Char}, c ≤ d → c.toNat ≤ d.toNat := fun hcd => hcd
  unfold Text.FlagTable.hexValue? at h
  split_ifs at h with hc hc hc
  all_goals
    cases h
    have hlast := hle hc.2
    simp only [Char.reduceToNat] at hlast ⊢
    omega

/-- Four digits in base sixteen. -/
theorem hexNumber?_lt {a b c d : Char} {n : Nat}
    (h : Text.FlagTable.hexNumber? [a, b, c, d] = some n) : n < 0x10000 := by
  simp only [Text.FlagTable.hexNumber?, List.foldl_cons, List.foldl_nil, Option.pure_def,
    Option.bind_eq_bind, Option.bind_some, Option.bind_eq_some_iff, Option.some.injEq] at h
  obtain ⟨_, ⟨_, ⟨_, ⟨va, ha, rfl⟩, vb, hb, rfl⟩, vc, hc, rfl⟩, vd, hd, rfl⟩ := h
  have hlta := hexValue?_lt ha
  have hltb := hexValue?_lt hb
  have hltc := hexValue?_lt hc
  have hltd := hexValue?_lt hd
  omega

theorem Codes.lt {cs : List Char} {ns : List Nat} (h : Codes cs ns) : ∀ n ∈ ns, n < 0x110000 := by
  have hchar : ∀ c : Char, c.toNat < 0x110000 := by
    intro c
    have hvalid : c.toNat < 0xD800 ∨ 0xDFFF < c.toNat ∧ c.toNat < 0x110000 := c.valid
    omega
  induction h with
  | nil => exact List.forall_mem_nil _
  | plain _ _ _ _ ih => exact List.forall_mem_cons.mpr ⟨hchar _, ih⟩
  | escape _ _ ih => exact List.forall_mem_cons.mpr ⟨hchar _, ih⟩
  | code hhex _ ih =>
      exact List.forall_mem_cons.mpr ⟨Nat.lt_trans (hexNumber?_lt hhex) (by decide), ih⟩

theorem scanText?_append {cs : List Char} {ns : List Nat} (h : Codes cs ns) (rest : List Char) :
    scanText? (cs ++ ['"'] ++ rest) = some ((decodeCodes? ns).map String.ofList, rest) := by
  rw [List.append_assoc, List.singleton_append, scanText?, scanCodes?_append h]
  rfl

/-- A text is read behind its opening quote. -/
theorem Quoted.exists_scanText? {cs : List Char} {t : Option String} (h : Quoted cs t) :
    ∃ body, cs = '"' :: body ∧ ∀ rest, scanText? (body ++ rest) = some (t, rest) := by
  cases h with
  | text hcodes hdecodes =>
      refine ⟨_, rfl, fun rest => ?_⟩
      rw [scanText?_append hcodes, (decodeCodes?_eq_some_iff hcodes.lt).mpr hdecodes]
      rfl
  | @halves cs ns hcodes hnone =>
      have hdecode : decodeCodes? ns = none :=
        Option.eq_none_iff_forall_ne_some.mpr fun s hs =>
          hnone s ((decodeCodes?_eq_some_iff hcodes.lt).mp hs)
      refine ⟨_, rfl, fun rest => ?_⟩
      rw [scanText?_append hcodes, hdecode]
      rfl

/-! ## Values -/

theorem scanValue?_skipSpace (n : Nat) (cs : List Char) :
    scanValue? n (skipSpace cs) = scanValue? n cs := by
  cases n with
  | zero => simp only [scanValue?]
  | succ n => simp only [scanValue?, skipSpace_skipSpace]

theorem scanItems?_skipSpace (n : Nat) (cs : List Char) :
    scanItems? n (skipSpace cs) = scanItems? n cs := by
  cases n with
  | zero => simp only [scanItems?]
  | succ n => simp only [scanItems?, scanValue?_skipSpace]

theorem scanMembers?_skipSpace (n : Nat) (cs : List Char) :
    scanMembers? n (skipSpace cs) = scanMembers? n cs := by
  cases n with
  | zero => simp only [scanMembers?]
  | succ n => simp only [scanMembers?, skipSpace_skipSpace]

/-- No item begins with a closing bracket. -/
theorem scanItems?_bracket (n : Nat) (rest : List Char) : scanItems? n (']' :: rest) = none := by
  match n with
  | 0 => simp only [scanItems?]
  | 1 => simp only [scanItems?, scanValue?]; rfl
  | n + 2 =>
      simp only [scanItems?, scanValue?, skipSpace_cons (show isSpace ']' = false by decide)]
      rfl

/-- No member begins with a closing brace. -/
theorem scanMembers?_brace (n : Nat) (rest : List Char) : scanMembers? n ('}' :: rest) = none := by
  cases n with
  | zero => simp only [scanMembers?]
  | succ n =>
      simp only [scanMembers?, skipSpace_cons (show isSpace '}' = false by decide)]
      rfl

theorem scanValue?_array {n : Nat} {cs rest : List Char} {js : List Json}
    (h : scanItems? n cs = some (js, rest)) : scanValue? (n + 1) ('[' :: cs) = some (.array js, rest) := by
  rw [← scanItems?_skipSpace] at h
  simp only [scanValue?, skipSpace_cons (show isSpace '[' = false by decide)]
  split
  · next heq =>
      -- an array that is closed at once has no items
      rw [heq, scanItems?_bracket] at h
      cases h
  · rw [h]
    rfl

theorem scanValue?_object {n : Nat} {cs rest : List Char} {ms : List (Option String × Json)}
    (h : scanMembers? n cs = some (ms, rest)) :
    scanValue? (n + 1) ('{' :: cs) = some (.object ms, rest) := by
  rw [← scanMembers?_skipSpace] at h
  simp only [scanValue?, skipSpace_cons (show isSpace '{' = false by decide)]
  split
  · next heq =>
      rw [heq, scanMembers?_brace] at h
      cases h
  · rw [h]
    rfl

/-- A number begins with its sign or with a digit. -/
theorem Number.exists_head {cs : List Char} {j : Json} (h : Number cs j) :
    ∃ c tail, cs = c :: tail ∧ (c = '-' ∨ c.isDigit = true) := by
  cases h with
  | @mk whole point mark places exponent negative hwhole hplaces hexponent =>
      cases negative with
      | true => exact ⟨_, _, rfl, .inl rfl⟩
      | false =>
          cases whole with
          | nil => exact absurd rfl hwhole.nonempty
          | cons d ds => exact ⟨_, _, rfl, .inr (hwhole.digits d List.mem_cons_self)⟩

/-- No other value begins like a number. -/
theorem scanValue?_number {n : Nat} {cs rest : List Char} {j : Json} (h : Number cs j)
    (hrest : Apart rest) : scanValue? (n + 1) (cs ++ rest) = some (j, rest) := by
  have hscan := scanNumber?_append h hrest
  obtain ⟨c, tail, rfl, hc⟩ := h.exists_head
  have hother : ∀ d ∈ blanks ++ ['"', '[', '{', 'n', 't', 'f'], d ≠ '-' ∧ d.isDigit = false := by
    simp [blanks]
  have hne : ∀ d ∈ blanks ++ ['"', '[', '{', 'n', 't', 'f'], c ≠ d := by
    rintro d hd rfl
    obtain ⟨hminus, hdigit⟩ := hother c hd
    rcases hc with rfl | hc
    · exact hminus rfl
    · exact absurd hc (by simp [hdigit])
  have hspace : isSpace c = false := by
    rw [← Bool.not_eq_true, isSpace_iff]
    exact fun hmem => hne c (List.mem_append_left _ hmem) rfl
  simp only [List.cons_append] at hscan ⊢
  have hvalue : scanValue? (n + 1) (c :: (tail ++ rest)) = scanNumber? (c :: (tail ++ rest)) := by
    simp only [blanks, List.cons_append, List.nil_append, List.forall_mem_cons] at hne
    simp [scanValue?, skipSpace_cons hspace, hne]
  rw [hvalue, hscan]

section Steps

variable {n : Nat} {cs behind rest : List Char} {j : Json} {t : Option String}

theorem scanItems?_last (hvalue : scanValue? n cs = some (j, behind))
    (hclose : skipSpace behind = ']' :: rest) : scanItems? (n + 1) cs = some ([j], rest) := by
  simp only [scanItems?, hvalue, Option.bind_eq_bind, Option.bind_some, hclose]

theorem scanItems?_next {js : List Json} (hvalue : scanValue? n cs = some (j, behind))
    {others : List Char} (hcomma : skipSpace behind = ',' :: others)
    (hitems : scanItems? n others = some (js, rest)) :
    scanItems? (n + 1) cs = some (j :: js, rest) := by
  simp only [scanItems?, hvalue, Option.bind_eq_bind, Option.bind_some, hcomma, hitems]

/-- A key with its colon and its value is read, up to what is left behind it. -/
structure ScansMember (n : Nat) (cs : List Char) (t : Option String) (j : Json) (rest : List Char)
    (key colon value behind : List Char) : Prop where
  quote : skipSpace cs = '"' :: key
  key : scanText? key = some (t, colon)
  colon : skipSpace colon = ':' :: value
  value : scanValue? n value = some (j, behind)
  behind : skipSpace behind = rest

variable {key colon value : List Char}

theorem scanMembers?_last (h : ScansMember n cs t j ('}' :: rest) key colon value behind) :
    scanMembers? (n + 1) cs = some ([(t, j)], rest) := by
  simp only [scanMembers?, h.quote, h.key, h.colon, h.value, h.behind, Option.bind_eq_bind,
    Option.bind_some]

theorem scanMembers?_next {others : List Char} {ms : List (Option String × Json)}
    (h : ScansMember n cs t j (',' :: others) key colon value behind)
    (hmembers : scanMembers? n others = some (ms, rest)) :
    scanMembers? (n + 1) cs = some ((t, j) :: ms, rest) := by
  simp only [scanMembers?, h.quote, h.key, h.colon, h.value, h.behind, hmembers, Option.bind_eq_bind,
    Option.bind_some]

end Steps

/-- The characters are read as this part. Lists are read with the sign that closes them. -/
def Reads (cs : List Char) : Part → Prop
  | .value j => ∀ n rest, 2 * cs.length ≤ n + 1 → Apart rest →
      scanValue? n (cs ++ rest) = some (j, rest)
  | .spaced j => ∀ n rest, 2 * cs.length ≤ n + 1 → Stops rest →
      ∃ behind, scanValue? n (cs ++ rest) = some (j, behind) ∧ skipSpace behind = rest
  | .items js => ∀ n rest, 2 * cs.length ≤ n → scanItems? n (cs ++ ']' :: rest) = some (js, rest)
  | .member (t, j) => ∀ n rest, 2 * cs.length ≤ n + 1 → Stops rest →
      ∃ key colon value behind, ScansMember n (cs ++ rest) t j rest key colon value behind
  | .members ms => ∀ n rest, 2 * cs.length ≤ n →
      scanMembers? n (cs ++ '}' :: rest) = some (ms, rest)

/-- What is not empty has something to count down. -/
theorem exists_succ_of_length {c : Char} {cs : List Char} {n : Nat}
    (h : 2 * (c :: cs).length ≤ n + 1) : ∃ m, n = m + 1 ∧ 2 * cs.length ≤ m := by
  rw [List.length_cons] at h
  exact ⟨n - 1, by omega, by omega⟩

/-- White space up to the sign that closes an empty list. -/
theorem skipSpace_closed {ws : List Char} (hws : Blank ws) {c : Char} (hc : isSpace c = false)
    (rest : List Char) : skipSpace (ws ++ [c] ++ rest) = c :: rest := by
  rw [List.append_assoc, skipSpace_blank hws]
  exact skipSpace_cons hc rest

theorem stops_cons {c : Char} (h : c ∈ [',', ']', '}']) (rest : List Char) : Stops (c :: rest) := by
  rintro d ⟨⟩
  exact h

/-! ### One lemma for each kind of part -/

section Parts

variable {c : Char} {cs cs' ws ws' key : List Char} {t : Option String} {j : Json} {js : List Json}
  {m : Option String × Json} {ms : List (Option String × Json)}

/-- A value has a first character, so one step of the reader is there to look at it. -/
theorem reads_value (h : ∀ n rest, 2 * cs.length ≤ n → Apart rest →
    scanValue? (n + 1) (c :: cs ++ rest) = some (j, rest)) : Reads (c :: cs) (.value j) := by
  intro n rest hn hrest
  obtain ⟨k, rfl, hk⟩ := exists_succ_of_length hn
  exact h k rest hk hrest

theorem Number.reads (h : Number cs j) : Reads cs (.value j) := by
  obtain ⟨c, tail, rfl, -⟩ := h.exists_head
  exact reads_value fun _ _ _ hrest => scanValue?_number h hrest

theorem Quoted.reads (h : Quoted cs t) : Reads cs (.value (.string t)) := by
  obtain ⟨body, rfl, hbody⟩ := h.exists_scanText?
  refine reads_value fun n rest _ _ => ?_
  have hquote : isSpace '"' = false := by decide
  simp only [scanValue?, List.cons_append, skipSpace_cons hquote, hbody]
  rfl

theorem Reads.array (h : Reads cs (.items js)) : Reads ('[' :: (cs ++ [']'])) (.value (.array js)) := by
  refine reads_value fun n rest hn _ => ?_
  rw [List.length_append] at hn
  rw [List.cons_append, List.append_assoc]
  exact scanValue?_array (h n rest (by omega))

theorem Reads.object (h : Reads cs (.members ms)) :
    Reads ('{' :: (cs ++ ['}'])) (.value (.object ms)) := by
  refine reads_value fun n rest hn _ => ?_
  rw [List.length_append] at hn
  rw [List.cons_append, List.append_assoc]
  exact scanValue?_object (h n rest (by omega))

theorem Reads.spaced (hws : Blank ws) (h : Reads cs (.value j)) (hws' : Blank ws') :
    Reads (ws ++ (cs ++ ws')) (.spaced j) := by
  intro n rest hn hrest
  rw [List.length_append, List.length_append] at hn
  refine ⟨ws' ++ rest, ?_, ?_⟩
  · rw [← scanValue?_skipSpace, List.append_assoc, skipSpace_blank hws, scanValue?_skipSpace,
      List.append_assoc]
    exact h n _ (by omega) (apart_blank hws' hrest)
  · rw [skipSpace_blank hws', hrest.skipSpace]

/-- The reader finds no value without a step, so a part that it reads has something to count down. -/
theorem Reads.length_pos (h : Reads cs (.spaced j)) : 0 < cs.length := by
  by_contra hzero
  obtain ⟨behind, hvalue, -⟩ := h 0 [] (by omega) (fun d hd => absurd hd (by simp))
  simp only [scanValue?, reduceCtorEq] at hvalue

theorem Reads.length_pos_of_member (h : Reads cs (.member m)) : 0 < cs.length := by
  by_contra hzero
  obtain ⟨_, _, _, _, hmember⟩ := h 0 [] (by omega) (fun d hd => absurd hd (by simp))
  have hvalue := hmember.value
  simp only [scanValue?, reduceCtorEq] at hvalue

theorem Reads.lastItem (h : Reads cs (.spaced j)) : Reads cs (.items [j]) := by
  intro n rest hn
  have hpos := h.length_pos
  obtain ⟨n, rfl⟩ : ∃ k, n = k + 1 := ⟨n - 1, by omega⟩
  obtain ⟨behind, hvalue, hbehind⟩ := h n (']' :: rest) hn (stops_cons (by decide) _)
  exact scanItems?_last hvalue hbehind

theorem Reads.item (h : Reads cs (.spaced j)) (h' : Reads cs' (.items js)) :
    Reads (cs ++ ',' :: cs') (.items (j :: js)) := by
  intro n rest hn
  rw [List.length_append, List.length_cons] at hn
  obtain ⟨n, rfl⟩ : ∃ k, n = k + 1 := ⟨n - 1, by omega⟩
  rw [List.append_assoc, List.cons_append]
  obtain ⟨behind, hvalue, hbehind⟩ :=
    h n (',' :: (cs' ++ ']' :: rest)) (by omega) (stops_cons (by decide) _)
  exact scanItems?_next hvalue hbehind (h' n rest (by omega))

theorem Reads.colon (hws : Blank ws) (hkey : Quoted key t) (hws' : Blank ws')
    (h : Reads cs (.spaced j)) : Reads (ws ++ (key ++ (ws' ++ ':' :: cs))) (.member (t, j)) := by
  intro n rest hn hrest
  simp only [List.length_append, List.length_cons] at hn
  obtain ⟨body, rfl, hbody⟩ := hkey.exists_scanText?
  obtain ⟨behind, hvalue, hbehind⟩ := h n rest (by omega) hrest
  refine ⟨_, _, cs ++ rest, behind, ?_, hbody (ws' ++ ':' :: cs ++ rest), ?_, hvalue, hbehind⟩
  · rw [List.append_assoc, skipSpace_blank hws, List.cons_append, List.cons_append,
      skipSpace_cons (by decide), List.append_assoc]
  · rw [List.append_assoc, skipSpace_blank hws', List.cons_append, skipSpace_cons (by decide)]

theorem Reads.lastMember (h : Reads cs (.member m)) : Reads cs (.members [m]) := by
  intro n rest hn
  have hpos := h.length_pos_of_member
  obtain ⟨n, rfl⟩ : ∃ k, n = k + 1 := ⟨n - 1, by omega⟩
  obtain ⟨_, _, _, _, hmember⟩ := h n ('}' :: rest) hn (stops_cons (by decide) _)
  exact scanMembers?_last hmember

theorem Reads.member (h : Reads cs (.member m)) (h' : Reads cs' (.members ms)) :
    Reads (cs ++ ',' :: cs') (.members (m :: ms)) := by
  intro n rest hn
  rw [List.length_append, List.length_cons] at hn
  obtain ⟨n, rfl⟩ : ∃ k, n = k + 1 := ⟨n - 1, by omega⟩
  rw [List.append_assoc, List.cons_append]
  obtain ⟨_, _, _, _, hmember⟩ :=
    h n (',' :: (cs' ++ '}' :: rest)) (by omega) (stops_cons (by decide) _)
  exact scanMembers?_next hmember (h' n rest (by omega))

end Parts

/-- **Each part is read as it is spelled.** The induction is over the spelling. -/
theorem Spells.reads {cs : List Char} {p : Part} (h : Spells cs p) : Reads cs p := by
  induction h with
  | null | yes | no => exact reads_value fun _ _ _ _ => rfl
  | number hnumber => exact hnumber.reads
  | string hquoted => exact hquoted.reads
  | emptyArray hws =>
      refine reads_value fun n rest _ _ => ?_
      simp only [scanValue?, List.cons_append, skipSpace_cons (show isSpace '[' = false by decide),
        skipSpace_closed hws (show isSpace ']' = false by decide)]
  | array _ ih => exact ih.array
  | emptyObject hws =>
      refine reads_value fun n rest _ _ => ?_
      simp only [scanValue?, List.cons_append, skipSpace_cons (show isSpace '{' = false by decide),
        skipSpace_closed hws (show isSpace '}' = false by decide)]
  | object _ ih => exact ih.object
  | spaced hws _ hws' ih => exact ih.spaced hws hws'
  | lastItem _ ih => exact ih.lastItem
  | item _ _ ih ih' => exact ih.item ih'
  | colon hws hkey hws' _ ih => exact ih.colon hws hkey hws'
  | lastMember _ ih => exact ih.lastMember
  | member _ _ ih ih' => exact ih.member ih'

/-- **What a text holds is read.** -/
theorem parse?_of_holds {text : String} {j : Json} (h : Holds text j) : parse? text = some j := by
  obtain ⟨behind, hvalue, hbehind⟩ :=
    h.reads (2 * text.toList.length + 2) [] (by omega) (fun c hc => absurd hc (by simp))
  rw [List.append_nil] at hvalue
  simp only [parse?, hvalue, Option.bind_eq_bind, Option.bind_some, hbehind, if_true]

end RenderPlan.Json
