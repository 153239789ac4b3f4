import Uv.Client.CacheControl

/-!
# What the header values contain

The items of the header values are read without regard to one another.  The parser
emits them in order, except that an invalid item or a name that has been emitted
before is replaced by `must-revalidate`.  A malformed list of header values
therefore always ends up as a `must-revalidate`.
-/

namespace Uv.Client

namespace CacheControlParser

/-! ## Items -/

/-- All items of one header value. -/
def readItems : ℕ → Bytes → List Item
  | 0, _ => []
  | _ + 1, [] => []
  | fuel + 1, byte :: rest =>
      let read := readItem (byte :: rest)
      read.1 :: readItems fuel read.2

def valueItems (value : Bytes) : List Item := readItems value.length value

/-- All items of the header values. -/
def headerItems (headers : List Bytes) : List Item := headers.flatMap valueItems

theorem length_dropWhile_le (p : UInt8 → Bool) (cur : Bytes) :
    (cur.dropWhile p).length ≤ cur.length :=
  (List.dropWhile_suffix p).length_le

theorem parseToken_length {cur name rest : Bytes}
    (htoken : parseToken cur = some (name, rest)) : rest.length < cur.length := by
  unfold parseToken at htoken
  have hsplit := congrArg List.length (List.takeWhile_append_dropWhile (p := isTokenByte) (l := cur))
  rw [List.length_append] at hsplit
  split at htoken
  · cases htoken
  · rename_i hnot
    cases htoken
    have hpos : (cur.takeWhile isTokenByte).length ≠ 0 := by
      intro hzero
      exact hnot (List.length_eq_zero_iff.mp hzero)
    omega

theorem parseQuotedString_length {cur value value' rest : Bytes}
    (hquoted : parseQuotedString cur value = some (value', rest)) :
    rest.length ≤ cur.length := by
  fun_induction parseQuotedString cur value with
  | case1 => cases hquoted
  | case2 =>
      cases hquoted
      simp
  | case3 => cases hquoted
  | case4 _ _ _ _ _ ih =>
      have hrest := ih hquoted
      simp only [List.length_cons]
      omega
  | case5 => cases hquoted
  | case6 _ _ _ _ _ _ ih =>
      have hrest := ih hquoted
      simp only [List.length_cons]
      omega
  | case7 => cases hquoted

theorem parseValue_length {cur value rest : Bytes}
    (hvalue : parseValue cur = some (value, rest)) : rest.length ≤ cur.length := by
  unfold parseValue at hvalue
  split at hvalue
  · cases hvalue
  · split at hvalue
    · exact (parseQuotedString_length hvalue).trans (Nat.le_succ _)
    · exact (parseToken_length hvalue).le

theorem skipDelimiter_length (cur : Bytes) : (skipDelimiter cur).length ≤ cur.length := by
  have hskip := length_dropWhile_le isAsciiWhitespace cur
  unfold skipDelimiter maybeParseDirectiveDelimiter skipWhitespace
  split
  · rename_i byte rest hcur
    rw [hcur, List.length_cons] at hskip
    split
    · omega
    · exact length_dropWhile_le isAsciiWhitespace cur
  · exact length_dropWhile_le isAsciiWhitespace cur

theorem maybeParseEquals_length (cur : Bytes) :
    (maybeParseEquals cur).2.length ≤ cur.length := by
  unfold maybeParseEquals
  split
  · split
    · exact Nat.le_succ _
    · exact le_rfl
  · exact le_rfl

/-- Every item takes at least one byte. -/
theorem readItem_length {cur : Bytes} (hcur : cur ≠ []) :
    (readItem cur).2.length < cur.length := by
  have hpos : 0 < cur.length := List.length_pos_iff.mpr hcur
  have hskip := length_dropWhile_le isAsciiWhitespace cur
  unfold readItem
  simp only [skipWhitespace]
  split
  · exact hpos
  · rename_i name rest htoken
    have htoken := parseToken_length htoken
    have hequals := maybeParseEquals_length rest
    split
    · rename_i rest' heq
      rw [heq] at hequals
      have hdelimiter := skipDelimiter_length rest'
      simp only at hequals ⊢
      omega
    · rename_i rest' heq
      rw [heq] at hequals
      split
      · exact hpos
      · rename_i value rest'' hvalue
        have hvalue := parseValue_length hvalue
        have hdelimiter := skipDelimiter_length rest''
        simp only at hequals ⊢
        omega

theorem readItems_fuel {fuel fuel' : ℕ} {cur : Bytes} (hfuel : cur.length ≤ fuel)
    (hfuel' : cur.length ≤ fuel') : readItems fuel cur = readItems fuel' cur := by
  induction fuel generalizing fuel' cur with
  | zero =>
      have hcur : cur = [] := List.length_eq_zero_iff.mp (Nat.le_zero.mp hfuel)
      subst hcur
      cases fuel' <;> rfl
  | succ fuel ih =>
      cases cur with
      | nil => cases fuel' <;> rfl
      | cons byte rest =>
          cases fuel' with
          | zero => cases hfuel'
          | succ fuel' =>
              have hlength := readItem_length (List.cons_ne_nil byte rest)
              rw [readItems, readItems]
              congr 1
              apply ih <;> omega

theorem valueItems_cons {cur : Bytes} (hcur : cur ≠ []) :
    valueItems cur = (readItem cur).1 :: valueItems (readItem cur).2 := by
  have hlength := readItem_length hcur
  cases cur with
  | nil => exact absurd rfl hcur
  | cons byte rest =>
      change (readItem (byte :: rest)).1 :: readItems rest.length _ = _
      congr 1
      apply readItems_fuel
      · rw [List.length_cons] at hlength
        omega
      · exact le_rfl

/-! ## What is emitted -/

/-- The directive emitted for an item, and the names emitted then; `seen` are the
names emitted before. -/
def emit (seen : List Bytes) : Item → Option CacheControlDirective × List Bytes
  | .blank => (none, seen)
  | .invalid =>
      if seen.contains (ascii "must-revalidate") then (none, seen)
      else (some .mustRevalidate, ascii "must-revalidate" :: seen)
  | .directive directive =>
      if seen.contains directive.name then
        if seen.contains (ascii "must-revalidate") then (none, seen)
        else (some .mustRevalidate, ascii "must-revalidate" :: seen)
      else (some directive, directive.name :: seen)

def emitAll (seen : List Bytes) : List Item → List CacheControlDirective
  | [] => []
  | item :: items => (emit seen item).1.toList ++ emitAll (emit seen item).2 items

/-- The items a parser has not read yet. -/
def items (parser : CacheControlParser) : List Item :=
  valueItems parser.cur ++ headerItems parser.directives

theorem parseItem_eq (parser : CacheControlParser) :
    parser.parseItem = ((emit parser.seen (readItem parser.cur).1).1,
      { parser with
        cur := (readItem parser.cur).2
        seen := (emit parser.seen (readItem parser.cur).1).2 }) := by
  unfold parseItem
  obtain ⟨item, rest⟩ := readItem parser.cur
  cases item with
  | blank => rfl
  | invalid =>
      simp only [emitRevalidation, emit]
      split <;> rfl
  | directive directive =>
      simp only [emitDirective, emitRevalidation, emit]
      split
      · split <;> rfl
      · rfl

/-- With enough fuel the parser emits what its items call for. -/
theorem emitted_eq {fuel : ℕ} {parser : CacheControlParser} (hfuel : parser.size < fuel) :
    parser.emitted fuel = emitAll parser.seen parser.items := by
  induction fuel generalizing parser with
  | zero => omega
  | succ fuel ih =>
      obtain ⟨cur, directives, seen⟩ := parser
      by_cases hcur : cur = []
      · subst hcur
        cases directives with
        | nil => rfl
        | cons value directives =>
            have hsize : size ⟨value, directives, seen⟩ < fuel := by
              simp only [size, List.map_cons, List.sum_cons, List.length_nil] at hfuel ⊢
              omega
            exact ih hsize
      · have hlength := readItem_length hcur
        have hitems : items ⟨cur, directives, seen⟩ =
            (readItem cur).1 :: items ⟨(readItem cur).2, directives, seen⟩ := by
          simp only [items, valueItems_cons hcur, List.cons_append]
        have hrest : emitted fuel ⟨(readItem cur).2, directives,
            (emit seen (readItem cur).1).2⟩ = emitAll (emit seen (readItem cur).1).2
              (items ⟨(readItem cur).2, directives, seen⟩) := by
          apply ih
          simp only [size] at hfuel ⊢
          omega
        rw [emitted, if_neg hcur, parseItem_eq, hitems, emitAll, ← hrest]
        cases (emit seen (readItem cur).1).1 with
        | none => rfl
        | some directive => rfl

theorem fromHeaders_eq (headers : List Bytes) :
    CacheControl.fromHeaders headers =
      .fromDirectives (emitAll [] (headerItems headers)) := by
  have hnew : (new headers).seen = [] ∧ (new headers).items = headerItems headers := by
    cases headers with
    | nil => exact ⟨rfl, rfl⟩
    | cons value headers => exact ⟨rfl, List.flatMap_cons.symm⟩
  rw [CacheControl.fromHeaders, emitted_eq (Nat.lt_succ_self _), hnew.1, hnew.2]

/-! ## Malformed headers -/

/-- The directive has a missing or invalid value where a number is required. -/
def BadNumber (directive : CacheControlDirective) : Prop :=
  parseInt directive.value = none ∧
    (directiveKind directive.name = some .maxAge ∨
      directiveKind directive.name = some .minFresh ∨
      directiveKind directive.name = some .sMaxage ∨
      directiveKind directive.name = some .maxStale ∧ directive.value ≠ [])

/-- The names of the directives among the items, repeated ones included. -/
def names (items : List Item) : List Bytes :=
  items.filterMap fun
    | .directive directive => some directive.name
    | _ => none

/-- The items have an invalid item, a bad number or a repeated name. -/
structure WellFormed (items : List Item) : Prop where
  valid : .invalid ∉ items
  numbers : ∀ directive, .directive directive ∈ items → ¬ BadNumber directive
  nodup : (names items).Nodup

/-- The header values contain a duplicated directive, a directive with a missing or
invalid value where a number is required, or something that is no directive. -/
def Malformed (headers : List Bytes) : Prop := ¬ WellFormed (headerItems headers)

/-- The directive makes the response revalidate. -/
def Forces (directive : CacheControlDirective) : Prop :=
  directive.name = ascii "must-revalidate" ∨ BadNumber directive

/-- If the items are malformed, or repeat a name that has been seen, then
`must-revalidate` has been seen or a directive that forces it is emitted. -/
theorem exists_forces {seen : List Bytes} {items : List Item}
    (hmalformed : ¬ WellFormed items ∨ ∃ name ∈ names items, name ∈ seen) :
    ascii "must-revalidate" ∈ seen ∨ ∃ directive ∈ emitAll seen items, Forces directive := by
  induction items generalizing seen with
  | nil =>
      rcases hmalformed with hnot | ⟨name, hname, -⟩
      · refine absurd ⟨?_, ?_, ?_⟩ hnot
        · exact List.not_mem_nil
        · exact fun _ hmem => absurd hmem List.not_mem_nil
        · exact List.nodup_nil
      · cases hname
  | cons item items ih =>
      by_cases hseen : ascii "must-revalidate" ∈ seen
      · exact .inl hseen
      have hcontains : ¬ seen.contains (ascii "must-revalidate") = true := by
        rwa [List.contains_iff_mem]
      cases item with
      | blank =>
          apply ih
          refine hmalformed.imp_left fun hnot hwell => hnot ⟨?_, ?_, hwell.nodup⟩
          · exact fun hmem => hwell.valid ((List.mem_cons.mp hmem).resolve_left nofun)
          · exact fun directive hmem =>
              hwell.numbers directive ((List.mem_cons.mp hmem).resolve_left nofun)
      | invalid =>
          right
          rw [emitAll, emit, if_neg hcontains]
          exact ⟨_, List.mem_cons_self, .inl rfl⟩
      | directive directive =>
          by_cases hname : directive.name ∈ seen
          · right
            rw [emitAll, emit, if_pos (List.contains_iff_mem.mpr hname), if_neg hcontains]
            exact ⟨_, List.mem_cons_self, .inl rfl⟩
          have hfirst : ¬ seen.contains directive.name = true := by
            rwa [List.contains_iff_mem]
          rw [emitAll, emit, if_neg hfirst]
          by_cases hforces : Forces directive
          · exact .inr ⟨directive, List.mem_cons_self, hforces⟩
          have hrest : ¬ WellFormed items ∨
              ∃ name ∈ names items, name ∈ directive.name :: seen := by
            rcases hmalformed with hnot | ⟨name, hmem, hold⟩
            · by_contra hneither
              push Not at hneither
              obtain ⟨hwell, hnew⟩ := hneither
              refine hnot ⟨?_, ?_, ?_⟩
              · exact fun hmem => hwell.valid ((List.mem_cons.mp hmem).resolve_left nofun)
              · intro other hmem hbad
                rcases List.mem_cons.mp hmem with heq | hmem
                · cases heq
                  exact hforces (.inr hbad)
                · exact hwell.numbers other hmem hbad
              · refine List.nodup_cons.mpr ⟨fun hmem => ?_, hwell.nodup⟩
                exact hnew _ hmem List.mem_cons_self
            · rcases List.mem_cons.mp hmem with rfl | hmem
              · exact absurd hold hname
              · exact .inr ⟨name, hmem, List.mem_cons_of_mem _ hold⟩
          rcases ih hrest with hmem | ⟨other, hmem, hother⟩
          · rcases List.mem_cons.mp hmem with heq | hmem
            · exact absurd (.inl heq.symm) hforces
            · exact .inl hmem
          · exact .inr ⟨other, List.mem_cons_of_mem _ hmem, hother⟩

end CacheControlParser

/-! ## What is collected -/

namespace CacheControl

open CacheControlParser

theorem mustRevalidate_setSeconds {cc : CacheControl} {value : Bytes}
    {set : ℕ → CacheControl} (hset : ∀ seconds, (set seconds).mustRevalidate = cc.mustRevalidate)
    (hcc : cc.mustRevalidate = true) : (cc.setSeconds value set).mustRevalidate = true := by
  unfold setSeconds
  split
  · rfl
  · rw [hset, hcc]

/-- No directive takes `must-revalidate` back. -/
theorem mustRevalidate_add {cc : CacheControl} (directive : CacheControlDirective)
    (hcc : cc.mustRevalidate = true) : (cc.add directive).mustRevalidate = true := by
  unfold add
  split
  case h_5 =>
    split
    · exact hcc
    · exact mustRevalidate_setSeconds (fun _ => rfl) hcc
  all_goals first
    | exact hcc
    | rfl
    | exact mustRevalidate_setSeconds (fun _ => rfl) hcc

theorem mustRevalidate_foldl {cc : CacheControl} (directives : List CacheControlDirective)
    (hcc : cc.mustRevalidate = true) :
    (directives.foldl add cc).mustRevalidate = true := by
  induction directives generalizing cc with
  | nil => exact hcc
  | cons directive directives ih => exact ih (mustRevalidate_add directive hcc)

theorem mustRevalidate_add_forces (cc : CacheControl) {directive : CacheControlDirective}
    (hforces : Forces directive) : (cc.add directive).mustRevalidate = true := by
  have hbad : ∀ set : ℕ → CacheControl, parseInt directive.value = none →
      (cc.setSeconds directive.value set).mustRevalidate = true := by
    intro set hnone
    rw [setSeconds, hnone]
  unfold add
  rcases hforces with hname | ⟨hnone, hkind | hkind | hkind | ⟨hkind, hvalue⟩⟩
  · rw [hname, show directiveKind (ascii "must-revalidate") = some .mustRevalidate from rfl]
  · rw [hkind]
    exact hbad _ hnone
  · rw [hkind]
    exact hbad _ hnone
  · rw [hkind]
    exact hbad _ hnone
  · rw [hkind]
    simp only [if_neg hvalue]
    exact hbad _ hnone

/-- Malformed header values are collected with `must-revalidate`. -/
theorem mustRevalidate_fromHeaders {headers : List Bytes} (hmalformed : Malformed headers) :
    (fromHeaders headers).mustRevalidate = true := by
  obtain ⟨directive, hmem, hforces⟩ :=
    (exists_forces (.inl hmalformed)).resolve_left List.not_mem_nil
  obtain ⟨before, after, hsplit⟩ := List.append_of_mem hmem
  rw [fromHeaders_eq, fromDirectives, hsplit, List.foldl_append, List.foldl_cons]
  exact mustRevalidate_foldl after (mustRevalidate_add_forces _ hforces)

end CacheControl

end Uv.Client
