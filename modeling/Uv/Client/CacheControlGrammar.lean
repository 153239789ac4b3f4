import Uv.Client.Directives

/-!
# The grammar of `Cache-Control`

The grammar of RFC 9111, Appendix A: directives with commas between them, each a token with an
optional value, which is a token or a quoted string.  The parser finds every directive of it.
-/

namespace Uv.Client

/-! ## The grammar -/

namespace Grammar

/-- `tchar`. -/
def IsTchar (byte : UInt8) : Prop :=
  byte ∈ ascii "!#$%&'*+-.^_`|~" ∨ (0x30 ≤ byte ∧ byte ≤ 0x39) ∨
    (0x41 ≤ byte ∧ byte ≤ 0x5A) ∨ (0x61 ≤ byte ∧ byte ≤ 0x7A)

/-- `qdtext`. -/
def IsQdtext (byte : UInt8) : Prop :=
  byte = 0x09 ∨ byte = 0x20 ∨ byte = 0x21 ∨ (0x23 ≤ byte ∧ byte ≤ 0x5B) ∨
    (0x5D ≤ byte ∧ byte ≤ 0x7E) ∨ 0x80 ≤ byte

/-- What `quoted-pair` can have after the backslash. -/
def IsEscaped (byte : UInt8) : Prop :=
  byte = 0x09 ∨ byte = 0x20 ∨ (0x21 ≤ byte ∧ byte ≤ 0x7E) ∨ 0x80 ≤ byte

/-- `token`. -/
def IsToken (text : Bytes) : Prop := text ≠ [] ∧ ∀ byte ∈ text, IsTchar byte

/-- `OWS`. -/
def IsOws (text : Bytes) : Prop := ∀ byte ∈ text, byte = 0x20 ∨ byte = 0x09

/-- A text within quotes, as it reads and as it is written. -/
inductive Quoted : Bytes → Bytes → Prop
  | nil : Quoted [] []
  | text {byte : UInt8} {content written : Bytes} (hbyte : IsQdtext byte)
      (hrest : Quoted content written) : Quoted (byte :: content) (byte :: written)
  | pair {byte : UInt8} {content written : Bytes} (hbyte : IsEscaped byte)
      (hrest : Quoted content written) : Quoted (byte :: content) (92 :: byte :: written)

/-- A directive, with the value if there is one. -/
structure Directive where
  name : Bytes
  value : Option Bytes

/-- `cache-directive`. -/
inductive IsDirective : Directive → Bytes → Prop
  | flag {name : Bytes} (hname : IsToken name) : IsDirective ⟨name, none⟩ name
  | token {name value : Bytes} (hname : IsToken name) (hvalue : IsToken value) :
      IsDirective ⟨name, some value⟩ (name ++ 61 :: value)
  | quoted {name content written : Bytes} (hname : IsToken name)
      (hquoted : Quoted content written) :
      IsDirective ⟨name, some content⟩ (name ++ 61 :: 34 :: (written ++ [34]))

/-- One directive or more, with commas between them. -/
inductive IsList : List Directive → Bytes → Prop
  | one {directive : Directive} {text : Bytes} (hdirective : IsDirective directive text) :
      IsList [directive] text
  | cons {directive : Directive} {directives : List Directive} {text before after rest : Bytes}
      (hdirective : IsDirective directive text) (hbefore : IsOws before) (hafter : IsOws after)
      (hrest : IsList directives rest) :
      IsList (directive :: directives) (text ++ (before ++ 44 :: (after ++ rest)))

/-- `Cache-Control`. -/
inductive IsValue : List Directive → Bytes → Prop
  | empty : IsValue [] []
  | list {directives : List Directive} {text : Bytes} (hlist : IsList directives text) :
      IsValue directives text

end Grammar

/-! ## Collecting -/

/-- The first directive of each name; `seen` are the names before. -/
def firsts {A : Type} (name : A → Bytes) (seen : List Bytes) : List A → List A
  | [] => []
  | directive :: directives =>
      if name directive ∈ seen then firsts name seen directives
      else directive :: firsts name (name directive :: seen) directives

/-- A name is repeated, or was there before. -/
def repeats {A : Type} (name : A → Bytes) (seen : List Bytes) : List A → Bool
  | [] => false
  | directive :: directives =>
      if name directive ∈ seen then true else repeats name (name directive :: seen) directives

namespace CacheControl

/-- Revalidate, if so. -/
def revalidateIf (cc : CacheControl) (b : Bool) : CacheControl :=
  { cc with mustRevalidate := cc.mustRevalidate || b }

end CacheControl

namespace Grammar

/-- Names are compared by their letters in lower case. -/
def Directive.lowerName (directive : Directive) : Bytes := directive.name.map toAsciiLowercase

/-- A directive that needs a number. -/
def setNumber (cc : CacheControl) (value : Option Bytes) (set : ℕ → CacheControl) :
    CacheControl :=
  match value.bind parseInt with
  | none => cc.revalidateIf true
  | some seconds => set seconds

/-- What a directive says, by the way it is written. -/
def apply (cc : CacheControl) (directive : Directive) : CacheControl :=
  match directiveKind directive.lowerName with
  | some .maxAge =>
      setNumber cc directive.value fun seconds => { cc with maxAgeSeconds := some seconds }
  | some .noCache => { cc with noCache := true }
  | some .noStore => { cc with noStore := true }
  | some .noTransform => { cc with noTransform := true }
  | some .maxStale =>
      match directive.value with
      -- a response of any age
      | none => { cc with maxStaleSeconds := some u64Max }
      | some value =>
          setNumber cc (some value) fun seconds => { cc with maxStaleSeconds := some seconds }
  | some .minFresh =>
      setNumber cc directive.value fun seconds => { cc with minFreshSeconds := some seconds }
  | some .onlyIfCached => { cc with onlyIfCached := true }
  | some .mustRevalidate => { cc with mustRevalidate := true }
  | some .mustUnderstand => { cc with mustUnderstand := true }
  | some .isPrivate => { cc with isPrivate := true }
  | some .proxyRevalidate => { cc with proxyRevalidate := true }
  | some .isPublic => { cc with isPublic := true }
  | some .sMaxage =>
      setNumber cc directive.value fun seconds => { cc with sMaxageSeconds := some seconds }
  | some .immutable => { cc with immutable := true }
  | none => cc

/-- The first directive of each name, and whether to revalidate for a repeated one. -/
def collect (directives : List Directive) : CacheControl :=
  ((firsts Directive.lowerName [] directives).foldl apply .default).revalidateIf
    (repeats Directive.lowerName [] directives)

end Grammar

/-! ## Reading the grammar -/

namespace CacheControlParser

open Grammar

theorem isTokenByte_iff {byte : UInt8} : isTokenByte byte = true ↔ IsTchar byte := by
  unfold isTokenByte isAsciiDigit IsTchar
  simp only [Bool.or_eq_true, Bool.and_eq_true, decide_eq_true_eq, List.contains_iff_mem, or_assoc]

theorem isToken_of_all {text : Bytes} (hne : text ≠ []) (hall : text.all isTokenByte = true) :
    IsToken text :=
  ⟨hne, fun byte hbyte => isTokenByte_iff.mp (List.all_eq_true.mp hall byte hbyte)⟩

theorem isQdtextByte_of_isQdtext {byte : UInt8} (hbyte : IsQdtext byte) :
    isQdtextByte byte = true ∧ byte ≠ 34 ∧ byte ≠ 92 := by
  refine ⟨?_, ?_, ?_⟩
  · unfold isQdtextByte
    simp only [Bool.or_eq_true, Bool.and_eq_true, decide_eq_true_eq, beq_iff_eq]
    rcases hbyte with h | h | h | h | h | h <;> simp [h]
  · rintro rfl
    revert hbyte
    unfold IsQdtext
    decide
  · rintro rfl
    revert hbyte
    unfold IsQdtext
    decide

theorem isQuotedPairByte_of_isEscaped {byte : UInt8} (hbyte : IsEscaped byte) :
    isQuotedPairByte byte = true := by
  unfold isQuotedPairByte
  simp only [Bool.or_eq_true, Bool.and_eq_true, decide_eq_true_eq, beq_iff_eq]
  rcases hbyte with h | h | h | h <;> simp [h]

/-- What can follow a directive. -/
def Ends (tail : Bytes) : Prop := ∀ byte ∈ tail.head?, byte = 0x20 ∨ byte = 0x09 ∨ byte = 44

theorem parseToken_token {token : Bytes} (tail : Bytes) (htoken : IsToken token)
    (htail : ∀ byte ∈ tail.head?, isTokenByte byte = false) :
    parseToken (token ++ tail) = some (token, tail) := by
  have hall : ∀ byte ∈ token, isTokenByte byte = true :=
    fun byte hbyte => isTokenByte_iff.mpr (htoken.2 byte hbyte)
  have htake : tail.takeWhile isTokenByte = [] := by
    cases tail with
    | nil => rfl
    | cons byte rest => exact List.takeWhile_cons_of_neg (by simp [htail byte rfl])
  have hdrop : tail.dropWhile isTokenByte = tail := by
    cases tail with
    | nil => rfl
    | cons byte rest => exact List.dropWhile_cons_of_neg (by simp [htail byte rfl])
  unfold parseToken
  rw [List.takeWhile_append_of_pos hall, List.dropWhile_append_of_pos hall, htake, hdrop,
    List.append_nil]
  cases token with
  | nil => exact absurd rfl htoken.1
  | cons byte rest => rfl

theorem Ends.notToken {tail : Bytes} (htail : Ends tail) :
    ∀ byte ∈ tail.head?, isTokenByte byte = false := by
  intro byte hbyte
  rcases htail byte hbyte with rfl | rfl | rfl <;> decide

theorem parseQuotedString_quoted {content written : Bytes} (hquoted : Quoted content written)
    (tail read : Bytes) :
    parseQuotedString (written ++ 34 :: tail) read = some (read ++ content, tail) := by
  induction hquoted generalizing read with
  | nil =>
      rw [List.nil_append, parseQuotedString.eq_def, List.append_nil]
      rfl
  | text hbyte hrest ih =>
      obtain ⟨hqdtext, hquote, hescape⟩ := isQdtextByte_of_isQdtext hbyte
      rw [List.cons_append, parseQuotedString.eq_def]
      simp only [if_neg hquote, if_neg hescape, if_pos hqdtext]
      rw [ih, List.append_assoc, List.singleton_append]
  | pair hbyte hrest ih =>
      have hquote : ¬ (92 : UInt8) = 34 := by decide
      rw [List.cons_append, List.cons_append, parseQuotedString.eq_def]
      simp only [if_neg hquote, if_true, isQuotedPairByte_of_isEscaped hbyte]
      rw [ih, List.append_assoc, List.singleton_append]

theorem skipWhitespace_append {blank text : Bytes} (hblank : IsOws blank)
    (htext : ∀ byte ∈ text.head?, isAsciiWhitespace byte = false) :
    skipWhitespace (blank ++ text) = text := by
  have hall : ∀ byte ∈ blank, isAsciiWhitespace byte = true := by
    intro byte hbyte
    rcases hblank byte hbyte with rfl | rfl <;> decide
  rw [skipWhitespace, List.dropWhile_append_of_pos hall]
  cases text with
  | nil => rfl
  | cons byte rest => exact List.dropWhile_cons_of_neg (by simp [htext byte rfl])

theorem head_token {token : Bytes} (htoken : IsToken token) (rest : Bytes) :
    ∀ byte ∈ (token ++ rest).head?, isTokenByte byte = true := by
  cases token with
  | nil => exact absurd rfl htoken.1
  | cons first token =>
      intro byte hbyte
      obtain rfl := Option.some.inj hbyte
      exact isTokenByte_iff.mpr (htoken.2 _ List.mem_cons_self)

theorem not_whitespace {byte : UInt8} (hbyte : isTokenByte byte = true) :
    isAsciiWhitespace byte = false := by
  by_contra hspace
  rw [Bool.not_eq_false] at hspace
  simp only [isAsciiWhitespace, Bool.or_eq_true, beq_iff_eq] at hspace
  rcases hspace with (((rfl | rfl) | rfl) | rfl) | rfl <;> exact absurd hbyte (by decide)

/-- The directive that the parser makes of one of the grammar. -/
def ofGrammar (directive : Grammar.Directive) : CacheControlDirective :=
  ⟨directive.lowerName, directive.value.getD []⟩

/-- A directive is read up to what follows it. -/
theorem readItem_directive {directive : Grammar.Directive} {text blank tail : Bytes}
    (hdirective : IsDirective directive text) (hblank : IsOws blank) (htail : Ends tail) :
    readItem (blank ++ (text ++ tail)) =
      (.directive (ofGrammar directive), skipDelimiter tail) := by
  have hequals : isTokenByte 61 = false := by decide
  cases hdirective with
  | flag hname =>
      have hskip := skipWhitespace_append hblank fun byte hbyte =>
        not_whitespace (head_token hname tail byte hbyte)
      have hnoEquals : maybeParseEquals tail = (false, tail) := by
        cases tail with
        | nil => rfl
        | cons byte rest =>
            have hne : byte ≠ 61 := by
              rintro rfl
              exact absurd (htail 61 rfl) (by decide)
            rw [maybeParseEquals, if_neg hne]
      unfold readItem
      simp only [hskip, parseToken_token tail hname htail.notToken, hnoEquals]
      rfl
  | token hname hvalue =>
      rename_i name value
      rw [List.append_assoc, List.cons_append]
      have hskip := skipWhitespace_append hblank fun byte hbyte =>
        not_whitespace (head_token hname (61 :: (value ++ tail)) byte hbyte)
      have htoken := parseToken_token (61 :: (value ++ tail)) hname
        fun byte hbyte => Option.some.inj hbyte ▸ hequals
      have hread : parseValue (value ++ tail) = some (value, tail) := by
        have hfirst := head_token hvalue tail
        have htokenValue := parseToken_token tail hvalue htail.notToken
        unfold parseValue
        split
        · rename_i heq
          rw [List.append_eq_nil_iff] at heq
          exact absurd heq.1 hvalue.1
        · rename_i byte rest heq
          have hquote : byte ≠ 34 := by
            rintro rfl
            exact absurd (hfirst 34 (by rw [heq]; rfl)) (by decide)
          rwa [if_neg hquote]
      unfold readItem
      simp only [hskip, htoken, maybeParseEquals, if_true, hread]
      rfl
  | quoted hname hquoted =>
      rename_i name content written
      have hassoc : name ++ 61 :: 34 :: (written ++ [34]) ++ tail =
          name ++ 61 :: 34 :: (written ++ 34 :: tail) := by simp
      rw [hassoc]
      have hskip := skipWhitespace_append hblank fun byte hbyte =>
        not_whitespace (head_token hname (61 :: 34 :: (written ++ 34 :: tail)) byte hbyte)
      have htoken := parseToken_token (61 :: 34 :: (written ++ 34 :: tail)) hname
        fun byte hbyte => Option.some.inj hbyte ▸ hequals
      have hread : parseValue (34 :: (written ++ 34 :: tail)) = some (content, tail) := by
        rw [parseValue, if_pos rfl, parseQuotedString_quoted hquoted, List.nil_append]
      unfold readItem
      simp only [hskip, htoken, maybeParseEquals, if_true, hread]
      rfl

theorem skipDelimiter_nil : skipDelimiter [] = [] := rfl

theorem skipDelimiter_comma {blank : Bytes} (hblank : IsOws blank) (rest : Bytes) :
    skipDelimiter (blank ++ 44 :: rest) = rest := by
  have hcomma : ∀ byte ∈ (44 :: rest : Bytes).head?, isAsciiWhitespace byte = false :=
    fun byte hbyte => Option.some.inj hbyte ▸ (by decide : isAsciiWhitespace 44 = false)
  have hskip := skipWhitespace_append hblank hcomma
  rw [skipDelimiter, hskip, maybeParseDirectiveDelimiter, if_pos rfl]

theorem ends_comma {blank : Bytes} (hblank : IsOws blank) (rest : Bytes) :
    Ends (blank ++ 44 :: rest) := by
  cases blank with
  | nil =>
      intro byte hbyte
      exact .inr (.inr (Option.some.inj hbyte).symm)
  | cons first blank =>
      intro byte hbyte
      obtain rfl := Option.some.inj hbyte
      rcases hblank first List.mem_cons_self with h | h
      · exact .inl h
      · exact .inr (.inl h)

theorem directive_ne_nil {directive : Grammar.Directive} {text : Bytes}
    (hdirective : IsDirective directive text) : text ≠ [] := by
  cases hdirective with
  | flag hname => exact hname.1
  | token hname hvalue => simp
  | quoted hname hquoted => simp

/-- Every directive of the grammar is found. -/
theorem valueItems_list {directives : List Grammar.Directive} {text : Bytes}
    (hlist : IsList directives text) {blank : Bytes} (hblank : IsOws blank) :
    valueItems (blank ++ text) =
      directives.map fun directive => .directive (ofGrammar directive) := by
  induction hlist generalizing blank with
  | one hdirective =>
      rename_i text
      have hends : Ends [] := fun byte hbyte => by cases hbyte
      have hread := readItem_directive hdirective hblank hends
      rw [List.append_nil, skipDelimiter_nil] at hread
      have hne : blank ++ text ≠ [] := by simp [directive_ne_nil hdirective]
      rw [valueItems_cons hne, hread]
      rfl
  | cons hdirective hbefore hafter hrest ih =>
      rename_i text before after rest
      have hread := readItem_directive hdirective hblank (ends_comma hbefore (after ++ rest))
      rw [skipDelimiter_comma hbefore] at hread
      have hne : blank ++ (text ++ (before ++ 44 :: (after ++ rest))) ≠ [] := by simp
      rw [valueItems_cons hne, hread, ih hafter]
      rfl

theorem valueItems_value {directives : List Grammar.Directive} {text : Bytes}
    (hvalue : IsValue directives text) :
    valueItems text = directives.map fun directive => .directive (ofGrammar directive) := by
  cases hvalue with
  | empty => rfl
  | list hlist =>
      have hblank : IsOws [] := fun byte hbyte => by cases hbyte
      exact valueItems_list hlist hblank

theorem headerItems_values {directives : List (List Grammar.Directive)} {headers : List Bytes}
    (hvalues : List.Forall₂ IsValue directives headers) :
    headerItems headers =
      directives.flatten.map fun directive => .directive (ofGrammar directive) := by
  induction hvalues with
  | nil => rfl
  | cons hvalue hvalues ih =>
      rw [headerItems, List.flatMap_cons, ← headerItems, ih, valueItems_value hvalue,
        List.flatten_cons, List.map_append]

/-! ## What is collected of it -/

end CacheControlParser

namespace CacheControl

open CacheControlParser Grammar

theorem revalidateIf_eq {cc : CacheControl} (hcc : cc.mustRevalidate = true) (b : Bool) :
    cc.revalidateIf b = cc := by
  unfold revalidateIf
  rw [hcc, Bool.true_or, ← hcc]

theorem setSeconds_revalidateIf (cc : CacheControl) (value : Bytes)
    (set set' : ℕ → CacheControl)
    (hset : ∀ seconds, set' seconds = (set seconds).revalidateIf true) :
    (cc.revalidateIf true).setSeconds value set' =
      (cc.setSeconds value set).revalidateIf true := by
  unfold setSeconds
  split
  · rfl
  · rw [hset]

theorem add_revalidateIf (cc : CacheControl) (directive : CacheControlDirective) :
    (cc.revalidateIf true).add directive = (cc.add directive).revalidateIf true := by
  unfold add
  split
  case h_5 =>
    split
    · rfl
    · exact setSeconds_revalidateIf _ _ _ _ fun _ => rfl
  all_goals first
    | rfl
    | exact setSeconds_revalidateIf _ _ _ _ fun _ => rfl

theorem foldl_revalidateIf (cc : CacheControl) (directives : List CacheControlDirective) :
    directives.foldl add (cc.revalidateIf true) =
      (directives.foldl add cc).revalidateIf true := by
  induction directives generalizing cc with
  | nil => rfl
  | cons directive directives ih => rw [List.foldl_cons, List.foldl_cons, add_revalidateIf, ih]

theorem add_mustRevalidate {cc : CacheControl} {directive : CacheControlDirective}
    (hname : directive.name = ascii "must-revalidate") :
    cc.add directive = cc.revalidateIf true := by
  unfold add revalidateIf
  rw [hname, show directiveKind (ascii "must-revalidate") = some .mustRevalidate from rfl,
    Bool.or_true]

/-- The parser remembers the same names, apart from the `must-revalidate` that it inserts. -/
structure Remembers (parsed seen : List Bytes) (cc : CacheControl) : Prop where
  other : ∀ name, name ≠ ascii "must-revalidate" → (name ∈ parsed ↔ name ∈ seen)
  seen : ascii "must-revalidate" ∈ seen → ascii "must-revalidate" ∈ parsed
  set : ascii "must-revalidate" ∈ parsed → cc.mustRevalidate = true

/-- What is emitted amounts to the first directive of each name. -/
theorem foldl_emitAll {parsed seen : List Bytes} {cc : CacheControl}
    (hremembers : Remembers parsed seen cc) (directives : List CacheControlDirective) :
    (emitAll parsed (directives.map .directive)).foldl add cc =
      ((firsts CacheControlDirective.name seen directives).foldl add cc).revalidateIf
        (repeats CacheControlDirective.name seen directives) := by
  induction directives generalizing parsed seen cc with
  | nil =>
      unfold revalidateIf
      rw [repeats, Bool.or_false]
      rfl
  | cons directive directives ih =>
      rw [List.map_cons, emitAll, firsts, repeats, emit]
      by_cases hparsed : directive.name ∈ parsed
      · rw [if_pos (List.contains_iff_mem.mpr hparsed)]
        by_cases hinserted : ascii "must-revalidate" ∈ parsed
        · -- a directive that is dropped
          rw [if_pos (List.contains_iff_mem.mpr hinserted), Option.toList_none, List.nil_append]
          have hset := hremembers.set hinserted
          by_cases hseen : directive.name ∈ seen
          · rw [if_pos hseen, if_pos hseen, ih hremembers,
              revalidateIf_eq (mustRevalidate_foldl _ hset),
              revalidateIf_eq (mustRevalidate_foldl _ hset)]
          · have hname : directive.name = ascii "must-revalidate" := by
              by_contra hne
              exact hseen ((hremembers.other _ hne).mp hparsed)
            have hnext : Remembers parsed (directive.name :: seen) cc := by
              refine ⟨?_, fun _ => hinserted, hremembers.set⟩
              intro name hne
              rw [List.mem_cons, hname, hremembers.other name hne]
              simp [hne]
            rw [if_neg hseen, if_neg hseen, List.foldl_cons, add_mustRevalidate hname,
              revalidateIf_eq hset, ih hnext]
        · -- a repeated name, for which the directive is inserted
          have hne : directive.name ≠ ascii "must-revalidate" := fun heq =>
            hinserted (heq ▸ hparsed)
          have hseen := (hremembers.other _ hne).mp hparsed
          have hnotSeen : ascii "must-revalidate" ∉ seen := fun hmem =>
            hinserted (hremembers.seen hmem)
          have hnext : Remembers (ascii "must-revalidate" :: parsed) seen
              (cc.revalidateIf true) := by
            refine ⟨?_, fun hmem => absurd hmem hnotSeen, fun _ => Bool.or_true _⟩
            intro name hname
            rw [List.mem_cons, ← hremembers.other name hname]
            simp [hname]
          have hinsertedName : CacheControlDirective.mustRevalidate.name =
            ascii "must-revalidate" := rfl
          rw [if_neg (by rwa [List.contains_iff_mem]), if_pos hseen, if_pos hseen,
            Option.toList_some, List.singleton_append, List.foldl_cons,
            add_mustRevalidate hinsertedName, ih hnext, foldl_revalidateIf,
            revalidateIf_eq (Bool.or_true _)]
      · -- the first directive of its name
        have hseen : directive.name ∉ seen := by
          intro hmem
          by_cases hname : directive.name = ascii "must-revalidate"
          · exact hparsed (hname ▸ hremembers.seen (hname ▸ hmem))
          · exact hparsed ((hremembers.other _ hname).mpr hmem)
        have hnext : Remembers (directive.name :: parsed) (directive.name :: seen)
            (cc.add directive) := by
          refine ⟨?_, ?_, ?_⟩
          · intro name hname
            rw [List.mem_cons, List.mem_cons, hremembers.other name hname]
          · intro hmem
            rcases List.mem_cons.mp hmem with heq | hmem
            · exact heq ▸ List.mem_cons_self
            · exact List.mem_cons_of_mem _ (hremembers.seen hmem)
          · intro hmem
            rcases List.mem_cons.mp hmem with heq | hmem
            · exact mustRevalidate_add_forces cc (.inl heq.symm)
            · exact mustRevalidate_add directive (hremembers.set hmem)
        rw [if_neg (by rwa [List.contains_iff_mem]), if_neg hseen, if_neg hseen,
          Option.toList_some, List.singleton_append, List.foldl_cons, List.foldl_cons, ih hnext]

/-! ## First occurrences -/

theorem firsts_map (seen : List Bytes) (directives : List Directive) :
    firsts CacheControlDirective.name seen (directives.map ofGrammar) =
      (firsts Directive.lowerName seen directives).map ofGrammar := by
  induction directives generalizing seen with
  | nil => rfl
  | cons directive directives ih =>
      have hname : (ofGrammar directive).name = directive.lowerName := rfl
      rw [List.map_cons, firsts, firsts, hname]
      split
      · exact ih seen
      · rw [List.map_cons, ih]

theorem repeats_map (seen : List Bytes) (directives : List Directive) :
    repeats CacheControlDirective.name seen (directives.map ofGrammar) =
      repeats Directive.lowerName seen directives := by
  induction directives generalizing seen with
  | nil => rfl
  | cons directive directives ih =>
      have hname : (ofGrammar directive).name = directive.lowerName := rfl
      rw [List.map_cons, repeats, repeats, hname]
      split
      · rfl
      · exact ih _

theorem firsts_names (seen : List Bytes) (directives : List Directive) :
    ((firsts Directive.lowerName seen directives).map Directive.lowerName).Nodup ∧
      ∀ directive ∈ firsts Directive.lowerName seen directives, directive.lowerName ∉ seen := by
  induction directives generalizing seen with
  | nil => exact ⟨List.nodup_nil, fun directive hmem => by cases hmem⟩
  | cons directive directives ih =>
      rw [firsts]
      split
      · exact ih seen
      · rename_i hnew
        obtain ⟨hnodup, hseen⟩ := ih (directive.lowerName :: seen)
        constructor
        · rw [List.map_cons, List.nodup_cons]
          refine ⟨?_, hnodup⟩
          intro hmem
          obtain ⟨other, hother, heq⟩ := List.mem_map.mp hmem
          exact hseen other hother (heq ▸ List.mem_cons_self)
        · intro other hmem
          rcases List.mem_cons.mp hmem with rfl | hmem
          · exact hnew
          · exact fun hold => hseen other hmem (List.mem_cons_of_mem _ hold)

theorem directiveKind_eq_maxStale {name : Bytes} (hkind : directiveKind name = some .maxStale) :
    name = ascii "max-stale" := by
  obtain ⟨before, after, heq, -⟩ := List.lookup_eq_some_iff.mp hkind
  have hmem : (name, DirectiveKind.maxStale) ∈ directiveNames := by
    rw [heq]
    simp
  simpa [directiveNames] using hmem

/-! ## The parser and the grammar -/

/-- `max-stale` is not written with an empty value. -/
def NotEmptyMaxStale (directive : Directive) : Prop :=
  directive.lowerName = ascii "max-stale" → directive.value ≠ some []

theorem setSeconds_getD (cc : CacheControl) (value : Option Bytes) (set : ℕ → CacheControl) :
    cc.setSeconds (value.getD []) set = setNumber cc value set := by
  have hempty : parseInt [] = none := rfl
  unfold setSeconds setNumber
  cases value with
  | none =>
      simp only [Option.getD_none, hempty, Option.bind_none, revalidateIf, Bool.or_true]
  | some value =>
      rw [Option.getD_some, Option.bind_some]
      cases parseInt value with
      | none => simp only [revalidateIf, Bool.or_true]
      | some seconds => rfl

theorem add_ofGrammar {directive : Directive} (hstale : NotEmptyMaxStale directive)
    (cc : CacheControl) : cc.add (ofGrammar directive) = Grammar.apply cc directive := by
  unfold add Grammar.apply ofGrammar
  cases hkind : directiveKind directive.lowerName with
  | none => rfl
  | some kind =>
      cases kind with
      | maxStale =>
          have hvalue := hstale (directiveKind_eq_maxStale hkind)
          cases hwritten : directive.value with
          | none => rfl
          | some value =>
              have hne : value ≠ [] := fun heq => hvalue (heq ▸ hwritten)
              simp only [Option.getD_some, if_neg hne]
              exact setSeconds_getD cc (some value) _
      | maxAge | minFresh | sMaxage => exact setSeconds_getD ..
      | _ => rfl

theorem fromHeaders_eq_firsts {directives : List (List Directive)} {headers : List Bytes}
    (hvalues : List.Forall₂ IsValue directives headers) :
    fromHeaders headers =
      (((firsts Directive.lowerName [] directives.flatten).map ofGrammar).foldl add
        default).revalidateIf (repeats Directive.lowerName [] directives.flatten) := by
  have hremembers : Remembers [] [] default :=
    ⟨fun _ _ => Iff.rfl, fun hmem => absurd hmem List.not_mem_nil,
      fun hmem => absurd hmem List.not_mem_nil⟩
  rw [fromHeaders_eq, headerItems_values hvalues, fromDirectives,
    ← firsts_map, ← repeats_map, ← foldl_emitAll hremembers, List.map_map]
  rfl

theorem foldl_ofGrammar {directives : List Directive}
    (hstale : ∀ directive ∈ directives, NotEmptyMaxStale directive) (cc : CacheControl) :
    (directives.map ofGrammar).foldl add cc = directives.foldl Grammar.apply cc := by
  induction directives generalizing cc with
  | nil => rfl
  | cons directive directives ih =>
      rw [List.map_cons, List.foldl_cons, List.foldl_cons,
        add_ofGrammar (hstale directive List.mem_cons_self),
        ih fun other hother => hstale other (List.mem_cons_of_mem _ hother)]

/-! ## An empty `max-stale` -/

theorem maxStaleSeconds_setNumber {cc : CacheControl} {value : Option Bytes}
    {set : ℕ → CacheControl}
    (hset : ∀ seconds, (set seconds).maxStaleSeconds = cc.maxStaleSeconds) :
    (setNumber cc value set).maxStaleSeconds = cc.maxStaleSeconds := by
  unfold setNumber
  split
  · rfl
  · exact hset _

theorem maxStaleSeconds_apply (cc : CacheControl) {directive : Directive}
    (hname : directive.lowerName ≠ ascii "max-stale") :
    (Grammar.apply cc directive).maxStaleSeconds = cc.maxStaleSeconds := by
  have hkind : directiveKind directive.lowerName ≠ some .maxStale :=
    fun heq => hname (directiveKind_eq_maxStale heq)
  unfold Grammar.apply
  split
  case h_5 =>
    rename_i heq
    exact absurd heq hkind
  all_goals first
    | rfl
    | exact maxStaleSeconds_setNumber fun _ => rfl

theorem maxStaleSeconds_foldl (cc : CacheControl) {directives : List Directive}
    (hnames : ∀ directive ∈ directives, directive.lowerName ≠ ascii "max-stale") :
    (directives.foldl Grammar.apply cc).maxStaleSeconds = cc.maxStaleSeconds := by
  induction directives generalizing cc with
  | nil => rfl
  | cons directive directives ih =>
      rw [List.foldl_cons, ih _ fun other hother => hnames other (List.mem_cons_of_mem _ hother),
        maxStaleSeconds_apply cc (hnames directive List.mem_cons_self)]

theorem add_emptyMaxStale (cc : CacheControl) {directive : Directive}
    (hname : directive.lowerName = ascii "max-stale") (hvalue : directive.value = some []) :
    (cc.add (ofGrammar directive)).maxStaleSeconds = some u64Max ∧
      (Grammar.apply cc directive).maxStaleSeconds = cc.maxStaleSeconds := by
  have hkind : directiveKind (ascii "max-stale") = some .maxStale := rfl
  constructor
  · unfold add ofGrammar
    rw [hname, hkind, hvalue]
    rfl
  · unfold Grammar.apply
    rw [hname, hkind, hvalue]
    rfl

/-- The first `max-stale`, written with an empty value, is taken for one without a value. -/
theorem foldl_emptyMaxStale {before after : List Directive} {directive : Directive}
    (hnodup : ((before ++ directive :: after).map Directive.lowerName).Nodup)
    (hname : directive.lowerName = ascii "max-stale") (hvalue : directive.value = some []) :
    (((before ++ directive :: after).map ofGrammar).foldl add default).maxStaleSeconds ≠
      ((before ++ directive :: after).foldl Grammar.apply default).maxStaleSeconds := by
  rw [List.map_append, List.map_cons, List.nodup_append, List.nodup_cons] at hnodup
  obtain ⟨-, ⟨hafter, -⟩, hdisjoint⟩ := hnodup
  have hbeforeNames : ∀ other ∈ before, other.lowerName ≠ ascii "max-stale" := by
    intro other hother heq
    exact hdisjoint _ (List.mem_map_of_mem hother) _ List.mem_cons_self (heq.trans hname.symm)
  have hafterNames : ∀ other ∈ after, other.lowerName ≠ ascii "max-stale" := by
    intro other hother heq
    exact hafter (List.mem_map.mpr ⟨other, hother, heq.trans hname.symm⟩)
  have hbeforeStale : ∀ other ∈ before, NotEmptyMaxStale other :=
    fun other hother heq => absurd heq (hbeforeNames other hother)
  have hafterStale : ∀ other ∈ after, NotEmptyMaxStale other :=
    fun other hother heq => absurd heq (hafterNames other hother)
  rw [List.map_append, List.map_cons, List.foldl_append, List.foldl_append, List.foldl_cons,
    List.foldl_cons, foldl_ofGrammar hbeforeStale, foldl_ofGrammar hafterStale,
    maxStaleSeconds_foldl _ hafterNames, maxStaleSeconds_foldl _ hafterNames,
    (add_emptyMaxStale _ hname hvalue).1, (add_emptyMaxStale _ hname hvalue).2,
    maxStaleSeconds_foldl _ hbeforeNames]
  exact fun heq => by cases heq

end CacheControl

/-! ## Termination -/

namespace CacheControlParser

/-- One iteration of the loops of `next`; `none` where there is nothing left. -/
def step (parser : CacheControlParser) :
    Option (Option CacheControlDirective × CacheControlParser) :=
  if parser.cur = [] then
    match parser.directives with
    | [] => none
    | cur :: directives => some (none, { parser with cur := cur, directives := directives })
  else some parser.parseItem

/-- A run of the parser to its end, and what it emits. -/
inductive Emits : CacheControlParser → List CacheControlDirective → Prop
  | done {parser : CacheControlParser} (hstep : parser.step = none) : Emits parser []
  | next {parser parser' : CacheControlParser} {directive : Option CacheControlDirective}
      {directives : List CacheControlDirective} (hstep : parser.step = some (directive, parser'))
      (hrest : Emits parser' directives) : Emits parser (directive.toList ++ directives)

/-- Every run ends. -/
theorem emits_emitted {fuel : ℕ} {parser : CacheControlParser} (hfuel : parser.size < fuel) :
    Emits parser (parser.emitted fuel) := by
  induction fuel generalizing parser with
  | zero => omega
  | succ fuel ih =>
      obtain ⟨cur, directives, seen⟩ := parser
      by_cases hcur : cur = []
      · subst hcur
        cases directives with
        | nil => exact .done rfl
        | cons value directives =>
            have hsize : size ⟨value, directives, seen⟩ < fuel := by
              simp only [size, List.map_cons, List.sum_cons, List.length_nil] at hfuel ⊢
              omega
            have hstep : step ⟨[], value :: directives, seen⟩ =
              some (none, ⟨value, directives, seen⟩) := rfl
            exact .next hstep (ih hsize)
      · have hlength := readItem_length hcur
        have hstep : step ⟨cur, directives, seen⟩ = some (parseItem ⟨cur, directives, seen⟩) :=
          if_neg hcur
        have hsize : size (parseItem ⟨cur, directives, seen⟩).2 < fuel := by
          rw [parseItem_eq]
          simp only [size] at hfuel ⊢
          omega
        have hrun := ih hsize
        rw [emitted, if_neg hcur]
        generalize parseItem ⟨cur, directives, seen⟩ = item at hstep hrun
        obtain ⟨directive, rest⟩ := item
        cases directive with
        | none => exact .next hstep hrun
        | some directive => exact .next hstep hrun

end CacheControlParser

namespace CacheControl

open CacheControlParser Grammar

/-- The parser ends on all texts.  On header values of the grammar it collects what the grammar
says, exactly where the first `max-stale` is not written with an empty value. -/
theorem fromHeaders_eq_collect_iff (headers : List Bytes) :
    (∃ directives, (CacheControlParser.new headers).Emits directives ∧
      fromHeaders headers = fromDirectives directives) ∧
    ∀ directives, List.Forall₂ IsValue directives headers →
      (fromHeaders headers = collect directives.flatten ↔
        ∀ directive ∈ firsts Directive.lowerName [] directives.flatten,
          directive.lowerName = ascii "max-stale" → directive.value ≠ some []) := by
  refine ⟨⟨_, emits_emitted (Nat.lt_succ_self _), rfl⟩, ?_⟩
  intro directives hvalues
  rw [fromHeaders_eq_firsts hvalues, collect]
  constructor
  · intro heq directive hmem hname hvalue
    obtain ⟨before, after, hsplit⟩ := List.append_of_mem hmem
    have hnodup := (firsts_names [] directives.flatten).1
    rw [hsplit] at heq hnodup
    have hsame := congrArg CacheControl.maxStaleSeconds heq
    exact foldl_emptyMaxStale hnodup hname hvalue hsame
  · intro hstale
    rw [foldl_ofGrammar hstale]

/-- `Max-Age=60` and `no-store`. -/
theorem fromHeaders_eq_collect_maxAge :
    fromHeaders [ascii "Max-Age=60", ascii "no-store"] =
      collect [⟨ascii "Max-Age", some (ascii "60")⟩, ⟨ascii "no-store", none⟩] ↔
        ∀ directive ∈ firsts Directive.lowerName []
          [⟨ascii "Max-Age", some (ascii "60")⟩, ⟨ascii "no-store", none⟩],
          directive.lowerName = ascii "max-stale" → directive.value ≠ some [] := by
  have hmaxAge : IsToken (ascii "Max-Age") := isToken_of_all (by decide) rfl
  have hsixty : IsToken (ascii "60") := isToken_of_all (by decide) rfl
  have hnoStore : IsToken (ascii "no-store") := isToken_of_all (by decide) rfl
  have hvalues : List.Forall₂ IsValue
      [[⟨ascii "Max-Age", some (ascii "60")⟩], [⟨ascii "no-store", none⟩]]
      [ascii "Max-Age=60", ascii "no-store"] :=
    .cons (.list (.one (.token hmaxAge hsixty))) (.cons (.list (.one (.flag hnoStore))) .nil)
  exact (fromHeaders_eq_collect_iff [ascii "Max-Age=60", ascii "no-store"]).2 _ hvalues

/-- `max-stale=""` lets the client accept a stale response of any age. -/
theorem not_fromHeaders_eq_collect : ∃ directives headers,
    List.Forall₂ IsValue directives headers ∧ fromHeaders headers ≠ collect directives.flatten ∧
      (fromHeaders headers).maxStaleSeconds = some u64Max ∧
      (fromHeaders headers).mustRevalidate = false := by
  refine ⟨[[⟨ascii "max-stale", some []⟩]], [ascii "max-stale" ++ 61 :: 34 :: ([] ++ [34])],
    ?_, by decide +kernel, by decide +kernel, by decide +kernel⟩
  have htoken : IsToken (ascii "max-stale") := isToken_of_all (by decide) rfl
  exact .cons (.list (.one (.quoted htoken .nil))) .nil

end CacheControl

end Uv.Client
