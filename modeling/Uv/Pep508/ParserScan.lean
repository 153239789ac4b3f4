import Uv.Pep508.Scan

/-!
# The parser follows the scanner

From corresponding states, each function of the recursive descent gets where the
run of the scanner gets: it panics or fails where the scanner stops, and when it
returns a tree the scanner has a frame with the formula of the tree.
-/

namespace Uv.Pep508

open Uv.Core Uv.Pep440
open Uv.Pep440.VersionSpecifier (isWhitespace)
open Interner

section Follows

variable [Alphabetic] [RangeOps ValidVersion] [RangeOps Text]
  {below : Variable → Variable → Prop}

/-- A state of the parser whose interner is sound and whose cursor is valid. -/
structure Ready (below : Variable → Variable → Prop) (s : ParserState) : Prop where
  cursor : s.cursor.Valid
  sound : Sound below s.interner

/-- A later state. -/
structure Later (s s' : ParserState) : Prop where
  interner : s.interner ≤ s'.interner
  chars : s'.cursor.chars <:+ s.cursor.chars

/-- The action gets where the run of the scanner gets. -/
inductive Follows (below : Variable → Variable → Prop)
    (action : ParserM (Option NodeId)) (s : ParserState) (scan : Scan)
    (post : Option Formula → Scan → Text → Prop) : Prop
  | panic {scan' : Scan} (hexec : action.exec s = none) (hruns : scan.Runs scan')
      (hpanics : scan'.panics = true)
  | error {e : Pep508Error} {s' : ParserState} {scan' : Scan}
      (hexec : action.exec s = some (.error e, s')) (hsound : Sound below s'.interner)
      (hruns : scan.Runs scan') (hstop : scan'.step = none)
      (hpanics : scan'.panics = false) (haccepts : scan'.accepts = false)
  | ok {tree : Option NodeId} {s' : ParserState} {formula : Option Formula}
      {scan' : Scan} (hexec : action.exec s = some (.ok tree, s'))
      (hready : Ready below s') (hlater : Later s s')
      (hdenotes : Denotes s'.interner tree formula) (hruns : scan.Runs scan')
      (hpost : post formula scan' s'.cursor.chars)

omit [Alphabetic] [RangeOps ValidVersion] [RangeOps Text] in
theorem Later.refl (s : ParserState) : Later s s := ⟨le_rfl, List.suffix_rfl⟩

omit [Alphabetic] [RangeOps ValidVersion] [RangeOps Text] in
theorem Later.trans {s middle s' : ParserState} (hfirst : Later s middle)
    (hlast : Later middle s') : Later s s' :=
  ⟨hfirst.interner.trans hlast.interner, hlast.chars.trans hfirst.chars⟩

namespace Follows

variable {action action' : ParserM (Option NodeId)} {s s' : ParserState}
  {scan scan' : Scan} {post post' : Option Formula → Scan → Text → Prop}

/-- The action goes on from a later state. -/
theorem of_exec_eq (hfollows : Follows below action' s' scan' post)
    (hexec : action.exec s = action'.exec s') (hlater : Later s s')
    (hruns : scan.Runs scan') : Follows below action s scan post := by
  cases hfollows with
  | panic hexec' hruns' hpanics =>
      exact .panic (hexec.trans hexec') (hruns.trans hruns') hpanics
  | error hexec' hsound hruns' hstop hpanics haccepts =>
      exact .error (hexec.trans hexec') hsound (hruns.trans hruns') hstop hpanics haccepts
  | ok hexec' hready hlater' hdenotes hruns' hpost =>
      exact .ok (hexec.trans hexec') hready (hlater.trans hlater') hdenotes
        (hruns.trans hruns') hpost

theorem weaken (hfollows : Follows below action s scan post)
    (hpost : ∀ formula scan' chars, post formula scan' chars → post' formula scan' chars) :
    Follows below action s scan post' := by
  cases hfollows with
  | panic hexec hruns hpanics => exact .panic hexec hruns hpanics
  | error hexec hsound hruns hstop hpanics haccepts =>
      exact .error hexec hsound hruns hstop hpanics haccepts
  | ok hexec hready hlater hdenotes hruns hheld =>
      exact .ok hexec hready hlater hdenotes hruns (hpost _ _ _ hheld)

theorem bind {next : Option NodeId → ParserM (Option NodeId)}
    (haction : Follows below action s scan post)
    (hnext : ∀ tree s' formula scan', Ready below s' → Later s s' →
      Denotes s'.interner tree formula → post formula scan' s'.cursor.chars →
        Follows below (next tree) s' scan' post') :
    Follows below (action >>= next) s scan post' := by
  cases haction with
  | panic hexec hruns hpanics => exact .panic (exec_bind_none hexec) hruns hpanics
  | error hexec hsound hruns hstop hpanics haccepts =>
      exact .error (exec_bind_error hexec) hsound hruns hstop hpanics haccepts
  | ok hexec hready hlater hdenotes hruns hpost =>
      exact (hnext _ _ _ _ hready hlater hdenotes hpost).of_exec_eq
        (exec_bind_ok hexec) hlater hruns

end Follows

/-! ## The loop -/

/-- What a loop of the parser does for one connective. -/
structure Loop (below : Variable → Variable → Prop) (op : Text) (kind : Connective)
    (apply : NodeId → NodeId → InternerM NodeId)
    (combine : Formula → Formula → Formula) (parseInner : ParserM (Option NodeId))
    (bound : ℕ) (At : Option Formula → Scan → Prop) : Prop where
  ne_nil : op ≠ []
  implements : Implements below apply combine
  phase : ∀ {formula scan}, At formula scan → scan.phase = .connective
  kind_iff : ∀ {text value}, takeBytes text (text.takeWhile isWordChar).length =
    some value → (value = op ↔ connective text = kind)
  body : ∀ {s formula scan}, Ready below s → s.cursor.chars.length < bound →
    At formula scan → connective scan.rest = kind →
    s.cursor.chars = scan.rest.dropWhile isWordChar →
      Follows below parseInner s scan fun more scan' chars =>
        At (join combine formula more) scan' ∧
          scan'.rest = chars.dropWhile isWhitespace

/-- Where a loop stops: the whitespace has been read, and no connective of its
kind follows. -/
structure Stops (kind : Connective) (scan : Scan) (chars : Text) : Prop where
  rest : scan.rest = chars
  trimmed : chars.dropWhile isWhitespace = chars
  not_kind : connective chars ≠ kind
  not_cut : connective chars ≠ .cut

/-- The state after the whitespace. -/
def ParserState.trimmed (s : ParserState) : ParserState :=
  ⟨s.cursor.eatWhitespace, s.reports, s.interner⟩

/-- The state after a word. -/
def ParserState.afterWord (s : ParserState) : ParserState :=
  ⟨(s.cursor.takeWhile isWordChar).2, s.reports, s.interner⟩

omit [Alphabetic] [RangeOps ValidVersion] [RangeOps Text] in
theorem chars_trimmed (s : ParserState) :
    s.trimmed.cursor.chars = s.cursor.chars.dropWhile isWhitespace := by
  rw [ParserState.trimmed, Cursor.eatWhitespace, Cursor.nextWhile_eq]

omit [Alphabetic] [RangeOps ValidVersion] [RangeOps Text] in
theorem chars_afterWord (s : ParserState) :
    s.afterWord.cursor.chars = s.cursor.chars.dropWhile isWordChar := by
  rw [ParserState.afterWord, Cursor.takeWhile, Cursor.nextWhile_eq]

omit [Alphabetic] [RangeOps ValidVersion] [RangeOps Text] in
theorem Ready.trimmed {s : ParserState} (hready : Ready below s) :
    Ready below s.trimmed :=
  ⟨hready.cursor.nextWhile, hready.sound⟩

omit [Alphabetic] [RangeOps ValidVersion] [RangeOps Text] in
theorem Ready.afterWord {s : ParserState} (hready : Ready below s) :
    Ready below s.afterWord :=
  ⟨hready.cursor.nextWhile, hready.sound⟩

omit [Alphabetic] [RangeOps ValidVersion] [RangeOps Text] in
theorem later_trimmed (s : ParserState) : Later s s.trimmed :=
  ⟨le_rfl, by rw [chars_trimmed]; exact List.dropWhile_suffix _⟩

omit [Alphabetic] [RangeOps ValidVersion] [RangeOps Text] in
theorem later_afterWord (s : ParserState) : Later s s.afterWord :=
  ⟨le_rfl, by rw [chars_afterWord]; exact List.dropWhile_suffix _⟩

omit [Alphabetic] [RangeOps ValidVersion] [RangeOps Text] in
/-- One round of the loop, up to the inner parser. -/
theorem exec_parseMarkerOpLoop (op : Text) (apply : NodeId → NodeId → InternerM NodeId)
    (parseInner : ParserM (Option NodeId)) (fuel : ℕ) (tree : Option NodeId)
    {s : ParserState} (hvalid : s.cursor.Valid) :
    (parseMarkerOpLoop op apply parseInner (fuel + 1) tree).exec s =
      match takeBytes s.trimmed.cursor.chars
        (s.trimmed.cursor.chars.takeWhile isWordChar).length with
      | none => none
      | some value =>
          if value = op then
            (do
              match ← parseInner with
              | some expression => do
                  let tree ← ParserM.ofInterner (applyTo apply tree expression)
                  parseMarkerOpLoop op apply parseInner fuel (some tree)
              | none => parseMarkerOpLoop op apply parseInner fuel tree :
                ParserM (Option NodeId)).exec s.trimmed.afterWord
          else some (.ok tree, s.trimmed) := by
  have htrimmed : s.trimmed.cursor.Valid := hvalid.nextWhile
  have hslice := htrimmed.slice (s.trimmed.cursor.chars.takeWhile isWordChar).length
  have hspace : ParserM.eatWhitespace.exec s = some (.ok (), s.trimmed) := rfl
  have hpeek : (ParserM.peekWhile isWordChar).exec s.trimmed =
      some (.ok (s.trimmed.cursor.pos,
        (s.trimmed.cursor.chars.takeWhile isWordChar).length), s.trimmed) := rfl
  have hread : (ParserM.slice s.trimmed.cursor.pos
      (s.trimmed.cursor.chars.takeWhile isWordChar).length).exec s.trimmed =
        (takeBytes s.trimmed.cursor.chars
          (s.trimmed.cursor.chars.takeWhile isWordChar).length).map
            fun text => (.ok text, s.trimmed) := by
    rw [← hslice]
    rfl
  rw [parseMarkerOpLoop, exec_bind_ok hspace]
  refine (exec_bind_ok hpeek).trans ?_
  cases htake : takeBytes s.trimmed.cursor.chars
      (s.trimmed.cursor.chars.takeWhile isWordChar).length with
  | none =>
      rw [htake] at hread
      exact exec_bind_none hread
  | some value =>
      rw [htake] at hread
      refine (exec_bind_ok hread).trans ?_
      by_cases hop : value = op
      · rw [if_pos hop]
        dsimp only
        rw [if_pos hop]
        rfl
      · rw [if_neg hop]
        dsimp only
        rw [if_neg hop]
        rfl

omit [Alphabetic] [RangeOps ValidVersion] [RangeOps Text] in
/-- A connective is not empty. -/
theorem length_afterWord {op text : Text} (hne : op ≠ [])
    (htake : takeBytes text (text.takeWhile isWordChar).length = some op) :
    (text.dropWhile isWordChar).length < text.length := by
  obtain ⟨hlength, -⟩ := takeBytes_eq_some htake
  have hpos : 0 < byteLength op := by
    obtain ⟨c, rest, rfl⟩ := List.exists_cons_of_ne_nil hne
    rw [byteLength_cons]
    exact Nat.add_pos_left c.utf8Size_pos _
  have hsplit := congrArg List.length
    (List.takeWhile_append_dropWhile (p := isWordChar) (l := text))
  rw [List.length_append] at hsplit
  omega

/-- The loop follows the scanner as long as connectives of its kind come. -/
theorem Loop.follows {op : Text} {kind : Connective}
    {apply : NodeId → NodeId → InternerM NodeId} {combine : Formula → Formula → Formula}
    {parseInner : ParserM (Option NodeId)} {bound : ℕ}
    {At : Option Formula → Scan → Prop}
    (hloop : Loop below op kind apply combine parseInner bound At) {fuel : ℕ}
    {s : ParserState} {tree : Option NodeId} {formula : Option Formula} {scan : Scan}
    (hready : Ready below s) (hdenotes : Denotes s.interner tree formula)
    (hat : At formula scan) (hrest : scan.rest = s.cursor.chars.dropWhile isWhitespace)
    (hfuel : s.cursor.chars.length < fuel) (hbound : s.cursor.chars.length ≤ bound) :
    Follows below (parseMarkerOpLoop op apply parseInner fuel tree) s scan
      fun formula scan' chars => At formula scan' ∧ Stops kind scan' chars := by
  induction fuel generalizing s tree formula scan with
  | zero => omega
  | succ fuel ih =>
      have hexec :=
        exec_parseMarkerOpLoop op apply parseInner fuel tree hready.cursor
      have htrimmed : s.trimmed.cursor.chars = scan.rest := by
        rw [chars_trimmed, hrest]
      rw [htrimmed] at hexec
      cases htake : takeBytes scan.rest (scan.rest.takeWhile isWordChar).length with
      | none =>
          rw [htake] at hexec
          refine .panic hexec (.refl scan) ?_
          simp only [Scan.panics, hloop.phase hat, connective, htake]
          rfl
      | some value =>
          rw [htake] at hexec
          dsimp only at hexec
          by_cases hop : value = op
          · rw [if_pos hop] at hexec
            have hkind := (hloop.kind_iff htake).mp hop
            have hchars : s.trimmed.afterWord.cursor.chars =
                scan.rest.dropWhile isWordChar := by
              rw [chars_afterWord, htrimmed]
            have hshorter := length_afterWord hloop.ne_nil (hop ▸ htake)
            have htrimmedLength := (later_trimmed s).chars.length_le
            rw [htrimmed] at htrimmedLength
            have hlater : Later s s.trimmed.afterWord :=
              (later_trimmed s).trans (later_afterWord _)
            have hbody := hloop.body hready.trimmed.afterWord
              (by rw [hchars]; omega) hat hkind hchars
            refine (hbody.bind fun tree' s' more scan' hready' hlater' hdenotes'
              hafter => ?_).of_exec_eq hexec hlater (.refl scan)
            obtain ⟨hat', hrest'⟩ := hafter
            have hlength := hlater'.chars.length_le
            rw [hchars] at hlength
            have hold : Denotes s'.interner tree formula :=
              hdenotes.mono hready.sound.wellFormed hready'.sound.wellFormed
                hlater'.interner
            cases tree' with
            | none =>
                cases more with
                | some literal => exact hdenotes'.elim
                | none =>
                    rw [join_none] at hat'
                    exact ih hready' hold hat' hrest' (by omega) (by omega)
            | some expression =>
                cases more with
                | none => exact hdenotes'.elim
                | some literal =>
                    obtain ⟨tree', interner, hrun, hsound, hle, hnew⟩ := applyTo_denotes
                      hloop.implements hready'.sound hold hdenotes'
                    have happly : (ParserM.ofInterner
                        (applyTo apply tree expression)).exec s' =
                          some (.ok tree', ⟨s'.cursor, s'.reports, interner⟩) := by
                      change Option.map _ ((applyTo apply tree expression).run _) = _
                      rw [hrun]
                      rfl
                    have hready'' : Ready below ⟨s'.cursor, s'.reports, interner⟩ :=
                      ⟨hready'.cursor, hsound⟩
                    have hfinish := @ih ⟨s'.cursor, s'.reports, interner⟩ (some tree') _ _
                      hready'' hnew hat' hrest' (by dsimp only; omega)
                      (by dsimp only; omega)
                    exact hfinish.of_exec_eq (exec_bind_ok happly)
                      ⟨hle, List.suffix_rfl⟩ (.refl scan')
          · rw [if_neg hop] at hexec
            refine .ok hexec hready.trimmed (later_trimmed s) hdenotes (.refl scan)
              ⟨hat, htrimmed.symm, ?_, ?_, ?_⟩
            · rw [htrimmed, Scan.rest]
              exact List.dropWhile_idempotent _ _
            · rw [htrimmed]
              exact fun hkind => hop ((hloop.kind_iff htake).mpr hkind)
            · rw [htrimmed, connective, htake]
              dsimp only
              split_ifs <;> simp

/-! ## Operands -/

/-- After a disjunction: the frame has its formula, and neither connective
follows. -/
structure Disjoined (outer : List Frame) (formula : Option Formula) (scan : Scan)
    (chars : Text) : Prop where
  outer : scan.outer = outer
  phase : scan.phase = .connective
  value : scan.frame.value = formula
  rest : scan.rest = chars
  other : connective chars = .other

/-- The parser of a disjunction, on texts up to some length. -/
def FollowsOr (below : Variable → Variable → Prop)
    (parseMarkerOr : ParserM (Option NodeId)) (bound : ℕ) : Prop :=
  ∀ (s : ParserState) (outer : List Frame) (text : Text), Ready below s →
    s.cursor.chars.length < bound →
    text.dropWhile isWhitespace = s.cursor.chars.dropWhile isWhitespace →
      Follows below parseMarkerOr s ⟨outer, .empty, .operand, text⟩ (Disjoined outer)

/-- A closing parenthesis ends the disjunction. -/
theorem nextExpectChar_follows {s : ParserState} {outer : List Frame} {frame : Frame}
    {tree : Option NodeId} {formula : Option Formula} {scan : Scan} (startPos : ℕ)
    (hready : Ready below s) (hdenotes : Denotes s.interner tree formula)
    (hdisjoined : Disjoined (frame :: outer) formula scan s.cursor.chars) :
    Follows below (do
        ParserM.nextExpectChar ')' startPos
        pure tree) s scan fun formula scan' chars =>
      scan' = ⟨outer, frame.push formula, .connective, chars⟩ := by
  have hclose : scan.step = scan.stepClose := by
    simp only [Scan.step, hdisjoined.phase, hdisjoined.rest, hdisjoined.other]
  have hread := lexes_nextExpectChar ')' startPos s hready.cursor
  generalize hlex : lexChar ')' s.cursor.chars = read at hread
  cases hread with
  | @ok _ cursor reports hvalid hrun =>
      have hchars := lexChar_eq_some.mp hlex
      have hstep : scan.step =
          some ⟨outer, frame.push formula, .connective, cursor.chars⟩ := by
        rw [hclose, Scan.stepClose, hdisjoined.outer, hdisjoined.rest, hchars,
          hdisjoined.value]
        exact if_pos rfl
      refine .ok (exec_bind_ok hrun) ⟨hvalid, hready.sound⟩ ⟨le_rfl, ?_⟩ hdenotes
        (.one hstep) rfl
      rw [hchars]
      exact List.suffix_cons ')' cursor.chars
  | error hvalid hrun =>
      refine .error (exec_bind_error hrun) hready.sound (.refl scan) ?_ ?_ ?_
      · rw [hclose, Scan.stepClose, hdisjoined.outer, hdisjoined.rest]
        cases hchars : s.cursor.chars with
        | nil => rfl
        | cons c text =>
            dsimp only
            rw [if_neg]
            rintro rfl
            rw [hchars, lexChar_eq_some.mpr rfl] at hlex
            cases hlex
      · simp only [Scan.panics, hdisjoined.phase, hdisjoined.rest, hdisjoined.other]
        rfl
      · simp [Scan.accepts, hdisjoined.outer]

/-- An expression, and its lowering. -/
theorem expression_follows {s : ParserState} {scan : Scan} (hready : Ready below s)
    (hphase : scan.phase = .operand) (hrest : scan.rest = s.cursor.chars)
    (hstep : scan.step = scan.stepExpression) :
    Follows below (do
        match ← parseMarkerKeyOpValue with
        | some expr => do
            let node ← ParserM.ofInterner (expression expr)
            pure (some node)
        | none => pure none) s scan fun formula scan' chars =>
      scan' = ⟨scan.outer, scan.frame.push formula, .connective, chars⟩ := by
  have hread := lexes_parseMarkerKeyOpValue s hready.cursor
  generalize hlex : lexExpression s.cursor.chars = read at hread
  rw [← hrest] at hlex
  cases hread with
  | error hvalid hrun =>
      refine .error (exec_bind_error hrun) hready.sound (.refl scan) ?_ ?_ ?_
      · rw [hstep, Scan.stepExpression, hlex]
      · simp only [Scan.panics, hphase, hlex]
      · simp [Scan.accepts, hphase]
  | @ok expr cursor reports hvalid hrun =>
      have hsuffix : cursor.chars <:+ s.cursor.chars := hrest ▸ lexExpression_suffix hlex
      cases expr with
      | none =>
          have hnone : scan.step =
              some ⟨scan.outer, scan.frame.push none, .connective, cursor.chars⟩ := by
            rw [hstep, Scan.stepExpression, hlex]
          have hdenotes : Denotes s.interner none none := trivial
          exact .ok (exec_bind_ok hrun) ⟨hvalid, hready.sound⟩ ⟨le_rfl, hsuffix⟩
            hdenotes (.one hnone) rfl
      | some expr =>
          cases htilde : expr.isTilde with
          | true =>
              have hlower : (ParserM.ofInterner (expression expr)).exec
                  ⟨cursor, reports, s.interner⟩ = none := by
                change Option.map _ ((expression expr).run _) = _
                simp only [expression, expressionEdges_tilde htilde]
                rfl
              refine .panic ((exec_bind_ok hrun).trans (exec_bind_none hlower))
                (.refl scan) ?_
              simp only [Scan.panics, hphase, hlex, htilde]
          | false =>
              obtain ⟨result, hresult⟩ :=
                expressionEdges_isSome (lexExpression_released hlex) htilde
              obtain ⟨node, interner, hnode, hsound, hle, hstands⟩ :=
                expression_standsFor hready.sound hresult
              have hlower : (ParserM.ofInterner (expression expr)).exec
                  ⟨cursor, reports, s.interner⟩ =
                    some (.ok node, ⟨cursor, reports, interner⟩) := by
                change Option.map _ ((expression expr).run _) = _
                rw [hnode]
                rfl
              have hsome : scan.step = some ⟨scan.outer,
                  scan.frame.push (some (.literal expr)), .connective, cursor.chars⟩ := by
                rw [hstep, Scan.stepExpression, hlex]
                dsimp only
                rw [htilde]
                rfl
              have hdenotes : Denotes interner (some node) (some (.literal expr)) :=
                hstands
              exact .ok ((exec_bind_ok hrun).trans (exec_bind_ok hlower))
                ⟨hvalid, hsound⟩ ⟨hle, hsuffix⟩ hdenotes (.one hsome) rfl

/-- An operand. -/
theorem parseMarkerExpr_follows {parseMarkerOr : ParserM (Option NodeId)} {bound : ℕ}
    (hinner : FollowsOr below parseMarkerOr bound) {s : ParserState} {scan : Scan}
    (hready : Ready below s) (hbound : s.cursor.chars.length ≤ bound)
    (hphase : scan.phase = .operand)
    (hrest : scan.rest = s.cursor.chars.dropWhile isWhitespace) :
    Follows below (parseMarkerExpr parseMarkerOr) s scan fun formula scan' chars =>
      scan' = ⟨scan.outer, scan.frame.push formula, .connective, chars⟩ := by
  have htrimmed : s.trimmed.cursor.chars = scan.rest := by
    rw [chars_trimmed, hrest]
  have hspace : ParserM.eatWhitespace.exec s = some (.ok (), s.trimmed) := rfl
  have heat : ∀ eaten, s.trimmed.cursor.eatChar '(' = eaten →
      (ParserM.onCursor (Cursor.eatChar · '(')).exec s.trimmed =
        some (.ok eaten.1, ⟨eaten.2, s.trimmed.reports, s.trimmed.interner⟩) := by
    rintro _ rfl
    rfl
  have hother : s.trimmed.cursor.eatChar '(' = (none, s.trimmed.cursor) →
      scan.step = scan.stepExpression →
        Follows below (parseMarkerExpr parseMarkerOr) s scan fun formula scan' chars =>
          scan' = ⟨scan.outer, scan.frame.push formula, .connective, chars⟩ := by
    intro hnone hstep
    exact (expression_follows hready.trimmed hphase htrimmed.symm hstep).of_exec_eq
      ((exec_bind_ok hspace).trans (exec_bind_ok (heat _ hnone))) (later_trimmed s)
      (.refl scan)
  cases hchars : scan.rest with
  | nil =>
      apply hother
      · rw [Cursor.eatChar, Cursor.peek, htrimmed, hchars]
        rfl
      · simp only [Scan.step, hphase, hchars]
  | cons c text =>
      by_cases hopen : c = '('
      · subst hopen
        have heaten : s.trimmed.cursor.eatChar '(' = (some s.trimmed.cursor.pos,
            ⟨s.trimmed.cursor.input, text,
              s.trimmed.cursor.pos + ('(' : Char).utf8Size⟩) := by
          rw [Cursor.eatChar, Cursor.peek, Cursor.next, htrimmed, hchars]
          rfl
        have hsplit : s.trimmed.cursor.chars = ['('] ++ text := by
          rw [htrimmed, hchars]
          rfl
        have hvalid := hready.trimmed.cursor.append hsplit
        have hstep : scan.step =
            some ⟨scan.frame :: scan.outer, .empty, .operand, text⟩ := by
          simp only [Scan.step, hphase, hchars, if_pos]
        have hlength := (later_trimmed s).chars.length_le
        rw [hsplit, List.length_append] at hlength
        let after : ParserState := ⟨⟨s.trimmed.cursor.input, text,
          s.trimmed.cursor.pos + byteLength ['(']⟩, s.reports, s.interner⟩
        have hafter : Ready below after := ⟨hvalid, hready.sound⟩
        have hlater : Later s after :=
          ⟨le_rfl, (show text <:+ s.trimmed.cursor.chars from
            hsplit ▸ List.suffix_append _ _).trans (later_trimmed s).chars⟩
        have hbody := hinner after (scan.frame :: scan.outer) text hafter
          (by change text.length < bound; simp at hlength; omega) rfl
        refine (hbody.bind fun tree s' formula scan' hready' hlater' hdenotes hpost =>
          nextExpectChar_follows s.trimmed.cursor.pos hready' hdenotes hpost).of_exec_eq
          ?_ hlater (.one hstep)
        refine (exec_bind_ok hspace).trans ((exec_bind_ok (heat _ heaten)).trans ?_)
        rfl
      · apply hother
        · rw [Cursor.eatChar, Cursor.peek, htrimmed, hchars]
          exact if_neg hopen
        · simp only [Scan.step, hphase, hchars, if_neg hopen]

/-! ## Conjunctions and disjunctions -/

omit [Alphabetic] [RangeOps ValidVersion] [RangeOps Text] in
theorem kind_and {text value : Text}
    (htake : takeBytes text (text.takeWhile isWordChar).length = some value) :
    value = "and".toList ↔ connective text = .and := by
  rw [connective, htake]
  dsimp only
  split_ifs <;> simp_all

omit [Alphabetic] [RangeOps ValidVersion] [RangeOps Text] in
theorem kind_or {text value : Text}
    (htake : takeBytes text (text.takeWhile isWordChar).length = some value) :
    value = "or".toList ↔ connective text = .or := by
  rw [connective, htake]
  dsimp only
  split_ifs <;> simp_all

/-- Inside a conjunction: its formula so far, and the disjunction before it. -/
structure InConjunction (outer : List Frame) (disjunction formula : Option Formula)
    (scan : Scan) : Prop where
  outer : scan.outer = outer
  frame : scan.frame = ⟨disjunction, formula⟩
  phase : scan.phase = .connective

/-- Between the conjunctions of a disjunction. -/
structure InDisjunction (outer : List Frame) (formula : Option Formula) (scan : Scan) :
    Prop where
  outer : scan.outer = outer
  value : scan.frame.value = formula
  phase : scan.phase = .connective
  not_and : connective scan.rest ≠ .and

omit [Alphabetic] [RangeOps ValidVersion] [RangeOps Text] in
theorem InDisjunction.disjoined {outer : List Frame} {formula : Option Formula}
    {scan : Scan} {chars : Text} (hat : InDisjunction outer formula scan)
    (hstops : Stops .or scan chars) : Disjoined outer formula scan chars where
  outer := hat.outer
  phase := hat.phase
  value := hat.value
  rest := hstops.rest
  other := by
    have hnot := hat.not_and
    rw [hstops.rest] at hnot
    cases hkind : connective chars with
    | other => rfl
    | and => exact absurd hkind hnot
    | or => exact absurd hkind hstops.not_kind
    | cut => exact absurd hkind hstops.not_cut

theorem loop_and {parseMarkerOr : ParserM (Option NodeId)} {bound : ℕ}
    (hinner : FollowsOr below parseMarkerOr bound) (outer : List Frame)
    (disjunction : Option Formula) :
    Loop below "and".toList .and and .and (parseMarkerExpr parseMarkerOr) (bound + 1)
      (InConjunction outer disjunction) where
  ne_nil := by decide
  implements := fun hsound hx hy => and_standsFor hsound hx hy
  phase := InConjunction.phase
  kind_iff := kind_and
  body := by
    intro s formula scan hready hlength hat hkind hchars
    have hstep : scan.step = some { scan with
        phase := .operand, text := scan.rest.dropWhile isWordChar } := by
      simp only [Scan.step, hat.phase, hkind]
    have hrest : Scan.rest { scan with
        phase := .operand, text := scan.rest.dropWhile isWordChar } =
          s.cursor.chars.dropWhile isWhitespace := by
      rw [Scan.rest, hchars]
    have hexpr := parseMarkerExpr_follows hinner hready (Nat.lt_succ_iff.mp hlength)
      rfl hrest
    apply (hexpr.of_exec_eq rfl (.refl s) (.one hstep)).weaken
    rintro more scan' chars rfl
    constructor
    · constructor
      · exact hat.outer
      · simp only [Frame.push, hat.frame]
      · rfl
    · rfl

/-- A conjunction. -/
theorem parseMarkerAnd_follows {parseMarkerOr : ParserM (Option NodeId)} {bound : ℕ}
    (hinner : FollowsOr below parseMarkerOr bound) {s : ParserState} {scan : Scan}
    (hready : Ready below s) (hbound : s.cursor.chars.length ≤ bound)
    (hphase : scan.phase = .operand) (hframe : scan.frame.conjunction = none)
    (hrest : scan.rest = s.cursor.chars.dropWhile isWhitespace) :
    Follows below (parseMarkerAnd parseMarkerOr) s scan fun formula scan' chars =>
      InConjunction scan.outer scan.frame.disjunction formula scan' ∧
        Stops .and scan' chars := by
  have hexpr := parseMarkerExpr_follows hinner hready hbound hphase hrest
  apply hexpr.bind
  rintro tree s' formula scan' hready' hlater hdenotes rfl
  have hlength := hlater.chars.length_le
  have hat : InConjunction scan.outer scan.frame.disjunction formula
      ⟨scan.outer, scan.frame.push formula, .connective, s'.cursor.chars⟩ := by
    constructor
    · rfl
    · rw [Frame.push, hframe]
      rfl
    · rfl
  have hrun := (loop_and hinner scan.outer scan.frame.disjunction).follows hready'
    hdenotes hat rfl (Nat.lt_succ_self s'.cursor.chars.length) (by omega)
  exact hrun.of_exec_eq rfl (.refl s') (.refl _)

theorem loop_or {parseMarkerOr : ParserM (Option NodeId)} {bound : ℕ}
    (hinner : FollowsOr below parseMarkerOr bound) (outer : List Frame) :
    Loop below "or".toList .or or .or (parseMarkerAnd parseMarkerOr) (bound + 1)
      (InDisjunction outer) where
  ne_nil := by decide
  implements := fun hsound hx hy => or_standsFor hsound hx hy
  phase := InDisjunction.phase
  kind_iff := kind_or
  body := by
    intro s formula scan hready hlength hat hkind hchars
    have hstep : scan.step = some { scan with
        frame := scan.frame.next, phase := .operand,
        text := scan.rest.dropWhile isWordChar } := by
      simp only [Scan.step, hat.phase, hkind]
    have hrest : Scan.rest { scan with
        frame := scan.frame.next, phase := .operand,
        text := scan.rest.dropWhile isWordChar } =
          s.cursor.chars.dropWhile isWhitespace := by
      rw [Scan.rest, hchars]
    have hand := parseMarkerAnd_follows hinner hready (Nat.lt_succ_iff.mp hlength)
      rfl rfl hrest
    apply (hand.of_exec_eq rfl (.refl s) (.one hstep)).weaken
    rintro more scan' chars ⟨hconjunction, hstops⟩
    constructor
    · constructor
      · exact hconjunction.outer.trans hat.outer
      · rw [Frame.value, hconjunction.frame]
        exact congrArg (join .or · more) hat.value
      · exact hconjunction.phase
      · rw [hstops.rest]
        exact hstops.not_kind
    · rw [hstops.rest, hstops.trimmed]

/-- A disjunction, to any nesting of parentheses. -/
theorem parseMarkerOr_follows (fuel : ℕ) :
    FollowsOr below (parseMarkerOr fuel) fuel := by
  induction fuel with
  | zero => exact fun s outer text _ hlength => absurd hlength (Nat.not_lt_zero _)
  | succ fuel ih =>
      intro s outer text hready hlength htext
      let start : Scan := ⟨outer, .empty, .operand, text⟩
      have hrest : start.rest = s.cursor.chars.dropWhile isWhitespace := htext
      have hand := parseMarkerAnd_follows ih hready (Nat.lt_succ_iff.mp hlength) rfl rfl
        hrest
      apply hand.bind
      rintro tree s' formula scan' hready' hlater hdenotes ⟨hconjunction, hstops⟩
      have hshorter := hlater.chars.length_le
      have hat : InDisjunction outer formula scan' := by
        constructor
        · exact hconjunction.outer
        · rw [Frame.value, hconjunction.frame]
          rfl
        · exact hconjunction.phase
        · rw [hstops.rest]
          exact hstops.not_kind
      have hrun := (loop_or ih outer).follows hready' hdenotes hat
        (hstops.rest.trans hstops.trimmed.symm)
        (Nat.lt_succ_self s'.cursor.chars.length) (by omega)
      have hdisjoined := hrun.weaken fun formula scan' chars ⟨hdisjunction, hstops⟩ =>
        hdisjunction.disjoined hstops
      exact hdisjoined.of_exec_eq rfl (.refl s') (.refl scan')

end Follows

end Uv.Pep508
