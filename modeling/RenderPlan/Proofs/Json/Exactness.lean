/-
# RenderPlan.Proofs.Json.Exactness -- nothing else is read

Whatever the parser reads was spelled by the grammar, so the two are the same: a text is read as a value if
and only if it holds this value (`parse?_eq_some_iff`). In particular no text holds two values.

Each scanner is followed on its own: what it took from the front of the text is a spelling of what it hands
back.
-/
import RenderPlan.Proofs.Json.Reading

namespace RenderPlan.Json

/-! ## White space and numbers -/

/-- What is skipped is white space. -/
theorem exists_blank (cs : List Char) : ∃ ws, Blank ws ∧ cs = ws ++ skipSpace cs :=
  ⟨cs.takeWhile isSpace, fun _ hc => isSpace_iff.mp (List.mem_takeWhile_imp hc),
    List.takeWhile_append_dropWhile.symm⟩

/-- The digits in front, and what is behind them. -/
theorem exists_spanDigits (cs : List Char) :
    ∃ ds rest, spanDigits cs = (ds, rest) ∧ (∀ d ∈ ds, d.isDigit = true) ∧ cs = ds ++ rest :=
  ⟨_, _, rfl, fun _ hd => List.mem_takeWhile_imp hd, List.takeWhile_append_dropWhile.symm⟩

theorem whole_of_scan {cs ds rest : List Char} (h : scanWhole? cs = some (ds, rest)) :
    Whole ds ∧ cs = ds ++ rest := by
  obtain ⟨ds', rest', hspan, hdigits, hcs⟩ := exists_spanDigits cs
  rw [scanWhole?, hspan] at h
  split at h
  · cases h
  · cases h
  · next hnonempty hzero =>
      cases h
      refine ⟨⟨⟨fun hnil => ?_, hdigits⟩, fun hhead => ?_⟩, hcs⟩
      · exact hnonempty rest (by rw [hnil])
      · obtain ⟨tail, rfl⟩ := List.head?_eq_some_iff.mp hhead
        cases tail with
        | nil => rfl
        | cons d tail => exact absurd rfl (hzero d tail rest)

theorem places_of_scan {cs rest : List Char} {places : Option (List Char)}
    (h : scanPlaces? cs = some (places, rest)) : ∃ point, Places point places ∧ cs = point ++ rest := by
  unfold scanPlaces? at h
  split at h
  · next behind =>
      obtain ⟨ds, rest', hspan, hdigits, rfl⟩ := exists_spanDigits behind
      rw [hspan] at h
      split at h
      · cases h
      · next hnonempty heq =>
          cases heq
          cases h
          exact ⟨_, .present ⟨hnonempty, hdigits⟩, rfl⟩
  · cases h
    exact ⟨[], .absent, rfl⟩

theorem exponent_of_scan {cs rest : List Char} {exponent : Option Int}
    (h : scanExponent? cs = some (exponent, rest)) :
    ∃ mark, Exponent mark exponent ∧ cs = mark ++ rest := by
  unfold scanExponent? at h
  split at h
  · cases h
    exact ⟨[], .absent, rfl⟩
  · next mark behind =>
      split at h
      · next hmark =>
          split at h
          next s unsigned hsigned =>
          have hsign : ∃ sign, ExponentSign sign s ∧ behind = sign ++ unsigned := by
            split at hsigned
            · cases hsigned
              exact ⟨_, .plus, rfl⟩
            · cases hsigned
              exact ⟨_, .minus, rfl⟩
            · cases hsigned
              exact ⟨_, .absent, rfl⟩
          obtain ⟨sign, hsign, rfl⟩ := hsign
          obtain ⟨ds, rest', hspan, hdigits, rfl⟩ := exists_spanDigits unsigned
          rw [hspan] at h
          split at h
          · cases h
          · next hnonempty heq =>
              cases heq
              cases h
              refine ⟨_, .present hmark hsign ⟨hnonempty, hdigits⟩, ?_⟩
              rw [List.cons_append, List.append_assoc]
      · cases h
        exact ⟨[], .absent, rfl⟩

theorem number_of_scan {cs rest : List Char} {j : Json} (h : scanNumber? cs = some (j, rest)) :
    ∃ number, Number number j ∧ cs = number ++ rest := by
  unfold scanNumber? at h
  split at h
  next negative unsigned hsigned =>
  have hsign : cs = (if negative then ['-'] else []) ++ unsigned := by
    split at hsigned <;> cases hsigned <;> rfl
  simp only [Option.bind_eq_bind, Option.bind_eq_some_iff] at h
  obtain ⟨⟨ds, cs₁⟩, hscan₁, ⟨places, cs₂⟩, hscan₂, ⟨exponent, cs₃⟩, hscan₃, heq⟩ := h
  cases heq
  obtain ⟨hwhole, rfl⟩ := whole_of_scan hscan₁
  obtain ⟨point, hpoint, rfl⟩ := places_of_scan hscan₂
  obtain ⟨mark, hmark, rfl⟩ := exponent_of_scan hscan₃
  refine ⟨_, .mk negative hwhole hpoint hmark, ?_⟩
  simp only [hsign, List.append_assoc]

/-! ## Texts -/

theorem mem_escapes {letter c : Char} (h : escaped? letter = some c) : (letter, c) ∈ escapes := by
  unfold escaped? at h
  split at h <;> cases h <;> decide

theorem codes_of_scan {cs rest : List Char} {ns : List Nat} (h : scanCodes? cs = some (ns, rest)) :
    ∃ body, Codes body ns ∧ cs = body ++ '"' :: rest := by
  fun_induction scanCodes? cs generalizing ns with
  | case1 => cases h
  | case2 =>
      cases h
      exact ⟨[], .nil, rfl⟩
  | case3 a b c d behind ih =>
      simp only [Option.bind_eq_bind, Option.bind_eq_some_iff] at h
      obtain ⟨n, hhex, ⟨ns', rest'⟩, hscan, heq⟩ := h
      cases heq
      obtain ⟨body, hbody, rfl⟩ := ih hscan
      exact ⟨_, .code hhex hbody, rfl⟩
  | case4 letter behind _ ih =>
      simp only [Option.bind_eq_bind, Option.bind_eq_some_iff] at h
      obtain ⟨c, hescaped, ⟨ns', rest'⟩, hscan, heq⟩ := h
      cases heq
      obtain ⟨body, hbody, rfl⟩ := ih hscan
      exact ⟨_, .escape (mem_escapes hescaped) hbody, rfl⟩
  | case5 => cases h
  | case6 c behind hquote _ _ hplain ih =>
      simp only [Option.bind_eq_bind, Option.bind_eq_some_iff] at h
      obtain ⟨⟨ns', rest'⟩, hscan, heq⟩ := h
      cases heq
      obtain ⟨body, hbody, rfl⟩ := ih hscan
      rw [not_or] at hplain
      exact ⟨_, .plain (Nat.le_of_not_lt hplain.1) hquote hplain.2 hbody, rfl⟩

theorem quoted_of_scan {cs rest : List Char} {t : Option String} (h : scanText? cs = some (t, rest)) :
    ∃ key, Quoted key t ∧ '"' :: cs = key ++ rest := by
  simp only [scanText?, Option.bind_eq_bind, Option.bind_eq_some_iff] at h
  obtain ⟨⟨ns, rest'⟩, hscan, heq⟩ := h
  cases heq
  obtain ⟨body, hcodes, rfl⟩ := codes_of_scan hscan
  refine ⟨'"' :: (body ++ ['"']), ?_, by rw [List.cons_append, List.append_assoc]; rfl⟩
  cases hdecode : decodeCodes? ns with
  | none =>
      refine .halves hcodes fun s hs => ?_
      rw [(decodeCodes?_eq_some_iff hcodes.lt).mpr hs] at hdecode
      cases hdecode
  | some s => exact .text hcodes ((decodeCodes?_eq_some_iff hcodes.lt).mp hdecode)

/-! ## Values -/

/-- A word is taken as a whole. -/
theorem eq_append_of_afterWord? {word cs rest : List Char} (h : afterWord? word cs = some rest) :
    cs = word ++ rest := by
  unfold afterWord? at h
  split at h
  · next hprefix =>
      cases h
      exact (List.prefix_iff_eq_append.mp (List.isPrefixOf_iff_prefix.mp hprefix)).symm
  · cases h

/-- The text begins with white space and a spelling of the value. -/
def BeginsWith (cs : List Char) (j : Json) (rest : List Char) : Prop :=
  ∃ ws body, Blank ws ∧ Spells body (.value j) ∧ cs = ws ++ (body ++ rest)

/-- The text begins with items up to the bracket that closes them. -/
def BeginsWithItems (cs : List Char) (js : List Json) (rest : List Char) : Prop :=
  ∃ body, Spells body (.items js) ∧ cs = body ++ ']' :: rest

/-- The text begins with members up to the brace that closes them. -/
def BeginsWithMembers (cs : List Char) (ms : List (Option String × Json)) (rest : List Char) : Prop :=
  ∃ body, Spells body (.members ms) ∧ cs = body ++ '}' :: rest

section Steps

variable {n : Nat} {cs rest : List Char}

theorem beginsWith_of_scan
    (hitems : ∀ cs js rest, scanItems? n cs = some (js, rest) → BeginsWithItems cs js rest)
    (hmembers : ∀ cs ms rest, scanMembers? n cs = some (ms, rest) → BeginsWithMembers cs ms rest)
    {j : Json} (h : scanValue? (n + 1) cs = some (j, rest)) : BeginsWith cs j rest := by
  -- the white space in front is the same in all cases
  suffices hbody : ∃ body, Spells body (.value j) ∧ skipSpace cs = body ++ rest by
    obtain ⟨ws, hws, hcs⟩ := exists_blank cs
    obtain ⟨body, hspells, hskip⟩ := hbody
    exact ⟨ws, body, hws, hspells, hskip ▸ hcs⟩
  simp only [scanValue?] at h
  split at h
  · cases h
  · next behind hskip =>
      obtain ⟨⟨t, rest'⟩, hscan, heq⟩ := Option.map_eq_some_iff.mp h
      cases heq
      obtain ⟨key, hkey, hcs⟩ := quoted_of_scan hscan
      exact ⟨key, .string hkey, hskip.trans hcs⟩
  · next behind hskip =>
      obtain ⟨ws, hws, hbehind⟩ := exists_blank behind
      split at h
      · next rest' hclose =>
          cases h
          refine ⟨_, .emptyArray hws, ?_⟩
          rw [hskip, hbehind, hclose, List.cons_append, List.append_assoc, List.singleton_append]
      · obtain ⟨⟨js, rest'⟩, hscan, heq⟩ := Option.map_eq_some_iff.mp h
        cases heq
        rw [scanItems?_skipSpace] at hscan
        obtain ⟨body, hbody, rfl⟩ := hitems _ _ _ hscan
        refine ⟨_, .array hbody, ?_⟩
        rw [hskip, List.cons_append, List.append_assoc, List.singleton_append]
  · next behind hskip =>
      obtain ⟨ws, hws, hbehind⟩ := exists_blank behind
      split at h
      · next rest' hclose =>
          cases h
          refine ⟨_, .emptyObject hws, ?_⟩
          rw [hskip, hbehind, hclose, List.cons_append, List.append_assoc, List.singleton_append]
      · obtain ⟨⟨ms, rest'⟩, hscan, heq⟩ := Option.map_eq_some_iff.mp h
        cases heq
        rw [scanMembers?_skipSpace] at hscan
        obtain ⟨body, hbody, rfl⟩ := hmembers _ _ _ hscan
        refine ⟨_, .object hbody, ?_⟩
        rw [hskip, List.cons_append, List.append_assoc, List.singleton_append]
  · next behind hskip =>
      obtain ⟨rest', hword, heq⟩ := Option.map_eq_some_iff.mp h
      cases heq
      exact ⟨_, .null, hskip.trans (congrArg ('n' :: ·) (eq_append_of_afterWord? hword))⟩
  · next behind hskip =>
      obtain ⟨rest', hword, heq⟩ := Option.map_eq_some_iff.mp h
      cases heq
      exact ⟨_, .yes, hskip.trans (congrArg ('t' :: ·) (eq_append_of_afterWord? hword))⟩
  · next behind hskip =>
      obtain ⟨rest', hword, heq⟩ := Option.map_eq_some_iff.mp h
      cases heq
      exact ⟨_, .no, hskip.trans (congrArg ('f' :: ·) (eq_append_of_afterWord? hword))⟩
  · next hskip =>
      obtain ⟨number, hnumber, hcs⟩ := number_of_scan h
      exact ⟨number, .number hnumber, hskip.trans hcs⟩

/-- A value is read up to the sign behind it, and with the white space on both sides. -/
theorem BeginsWith.spaced {j : Json} (h : BeginsWith cs j rest) :
    ∃ body, Spells body (.spaced j) ∧ cs = body ++ skipSpace rest := by
  obtain ⟨ws, body, hws, hbody, rfl⟩ := h
  obtain ⟨ws', hws', hrest⟩ := exists_blank rest
  refine ⟨_, .spaced hws hbody hws', ?_⟩
  rw [List.append_assoc, List.append_assoc, ← hrest]

theorem beginsWithItems_of_scan
    (hvalue : ∀ cs j rest, scanValue? n cs = some (j, rest) → BeginsWith cs j rest)
    (hitems : ∀ cs js rest, scanItems? n cs = some (js, rest) → BeginsWithItems cs js rest)
    {js : List Json} (h : scanItems? (n + 1) cs = some (js, rest)) : BeginsWithItems cs js rest := by
  simp only [scanItems?, Option.bind_eq_bind, Option.bind_eq_some_iff] at h
  obtain ⟨⟨j, behind⟩, hscan, h⟩ := h
  obtain ⟨body, hbody, hcs⟩ := (hvalue _ _ _ hscan).spaced
  split at h
  · next rest' hclose =>
      cases h
      exact ⟨body, .lastItem hbody, hcs.trans (congrArg (body ++ ·) hclose)⟩
  · next others hcomma =>
      simp only [Option.bind_eq_some_iff] at h
      obtain ⟨⟨js', rest'⟩, hothers, heq⟩ := h
      cases heq
      obtain ⟨body', hbody', rfl⟩ := hitems _ _ _ hothers
      refine ⟨_, .item hbody hbody', ?_⟩
      rw [hcs, hcomma, List.append_assoc, List.cons_append]
  · cases h

theorem beginsWithMembers_of_scan
    (hvalue : ∀ cs j rest, scanValue? n cs = some (j, rest) → BeginsWith cs j rest)
    (hmembers : ∀ cs ms rest, scanMembers? n cs = some (ms, rest) → BeginsWithMembers cs ms rest)
    {ms : List (Option String × Json)} (h : scanMembers? (n + 1) cs = some (ms, rest)) :
    BeginsWithMembers cs ms rest := by
  obtain ⟨ws, hws, hcs⟩ := exists_blank cs
  simp only [scanMembers?] at h
  split at h
  · next key hquote =>
      simp only [Option.bind_eq_bind, Option.bind_eq_some_iff] at h
      obtain ⟨⟨t, behindKey⟩, hkey, h⟩ := h
      obtain ⟨key', hquoted, hkey'⟩ := quoted_of_scan hkey
      obtain ⟨ws', hws', hbehindKey⟩ := exists_blank behindKey
      split at h
      · next value hcolon =>
          simp only [Option.bind_eq_some_iff] at h
          obtain ⟨⟨j, behind⟩, hscan, h⟩ := h
          obtain ⟨body, hbody, hvalue'⟩ := (hvalue _ _ _ hscan).spaced
          have hmember := Spells.colon hws hquoted hws' hbody
          have hsplit : cs = (ws ++ (key' ++ (ws' ++ ':' :: body))) ++ skipSpace behind := by
            rw [hcs, hquote, hkey', hbehindKey, hcolon, hvalue']
            simp only [List.append_assoc, List.cons_append]
          split at h
          · next rest' hclose =>
              cases h
              exact ⟨_, .lastMember hmember, hsplit.trans (congrArg (_ ++ ·) hclose)⟩
          · next others hcomma =>
              simp only [Option.bind_eq_some_iff] at h
              obtain ⟨⟨ms', rest'⟩, hothers, heq⟩ := h
              cases heq
              obtain ⟨body', hbody', rfl⟩ := hmembers _ _ _ hothers
              refine ⟨_, .member hmember hbody', ?_⟩
              rw [hsplit, hcomma, List.append_assoc _ (',' :: body'), List.cons_append]
          · cases h
      · cases h
  · cases h

end Steps

/-- **Each part that is read was spelled.** The induction is over the bound that counts down. -/
theorem spells_of_scan (n : Nat) :
    (∀ cs j rest, scanValue? n cs = some (j, rest) → BeginsWith cs j rest) ∧
      (∀ cs js rest, scanItems? n cs = some (js, rest) → BeginsWithItems cs js rest) ∧
      ∀ cs ms rest, scanMembers? n cs = some (ms, rest) → BeginsWithMembers cs ms rest := by
  induction n with
  | zero => exact ⟨nofun, nofun, nofun⟩
  | succ n ih =>
      obtain ⟨hvalue, hitems, hmembers⟩ := ih
      exact ⟨fun _ _ _ h => beginsWith_of_scan hitems hmembers h,
        fun _ _ _ h => beginsWithItems_of_scan hvalue hitems h,
        fun _ _ _ h => beginsWithMembers_of_scan hvalue hmembers h⟩

/-- **The parser reads exactly what the grammar spells.** -/
theorem parse?_eq_some_iff {text : String} {j : Json} : parse? text = some j ↔ Holds text j := by
  refine ⟨fun h => ?_, parse?_of_holds⟩
  simp only [parse?, Option.bind_eq_bind, Option.bind_eq_some_iff] at h
  obtain ⟨⟨j', rest⟩, hscan, h⟩ := h
  split at h
  · next hrest =>
      cases h
      obtain ⟨body, hbody, htext⟩ := ((spells_of_scan _).1 _ _ _ hscan).spaced
      rw [hrest, List.append_nil] at htext
      rw [Holds, htext]
      exact hbody
  · cases h

/-- No text holds two values. -/
theorem Holds.unique {text : String} {j j' : Json} (h : Holds text j) (h' : Holds text j') : j = j' :=
  Option.some.inj ((parse?_of_holds h).symm.trans (parse?_of_holds h'))

end RenderPlan.Json
