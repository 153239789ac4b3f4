import Uv.Pep508.Formula

/-!
# The scanner

The parser descends recursively and lowers what it reads; seen from outside it
reads a text from left to right.  The scanner is a machine that does only this: it
keeps one frame for every open parenthesis and expects either an operand or a
connective.  Its steps are a function, so every text has one run.

The parser follows the run.  It panics, fails or succeeds exactly if the run ends
in a state where the machine does.
-/

namespace Uv.Pep508

open Relation
open Uv.Core Uv.Pep440
open Uv.Pep440.VersionSpecifier (isWhitespace)

/-! ## The machine -/

/-- What has been read since a parenthesis was opened: the disjunction so far and
its last conjunction so far. -/
structure Frame where
  disjunction : Option Formula
  conjunction : Option Formula

namespace Frame

def empty : Frame := ⟨none, none⟩

/-- A further operand of the conjunction. -/
def push (frame : Frame) (formula : Option Formula) : Frame :=
  { frame with conjunction := join .and frame.conjunction formula }

def value (frame : Frame) : Option Formula :=
  join .or frame.disjunction frame.conjunction

/-- The conjunction is complete. -/
def next (frame : Frame) : Frame := ⟨frame.value, none⟩

end Frame

inductive Phase where
  | operand
  | connective
  deriving DecidableEq

structure Scan where
  outer : List Frame
  frame : Frame
  phase : Phase
  text : Text

/-- What stands where a connective may stand.  As many bytes are compared as the
word has characters, so the comparison may end inside a character. -/
inductive Connective where
  | cut
  | and
  | or
  | other
  deriving DecidableEq

def isWordChar (c : Char) : Bool := !isWhitespace c

def connective (text : Text) : Connective :=
  match takeBytes text (text.takeWhile isWordChar).length with
  | none => .cut
  | some value =>
      if value = "and".toList then .and
      else if value = "or".toList then .or
      else .other

section Machine

variable [Alphabetic]

namespace Scan

def start (text : Text) : Scan := ⟨[], .empty, .operand, text⟩

/-- The text without the whitespace it starts with. -/
def rest (scan : Scan) : Text := scan.text.dropWhile isWhitespace

/-- An operand that is no parenthesis. -/
def stepExpression (scan : Scan) : Option Scan :=
  match lexExpression scan.rest with
  | none => none
  | some (none, text) =>
      some { scan with frame := scan.frame.push none, phase := .connective, text }
  | some (some expr, text) =>
      if expr.isTilde then none
      else
        some { scan with
          frame := scan.frame.push (some (.literal expr)), phase := .connective, text }

/-- A closing parenthesis. -/
def stepClose (scan : Scan) : Option Scan :=
  match scan.outer, scan.rest with
  | frame :: outer, c :: text =>
      if c = ')' then some ⟨outer, frame.push scan.frame.value, .connective, text⟩
      else none
  | _, _ => none

/-- One step; `none` where the machine stops. -/
def step (scan : Scan) : Option Scan :=
  match scan.phase with
  | .operand =>
      match scan.rest with
      | [] => scan.stepExpression
      | c :: text =>
          if c = '(' then some ⟨scan.frame :: scan.outer, .empty, .operand, text⟩
          else scan.stepExpression
  | .connective =>
      match connective scan.rest with
      | .cut => none
      | .and =>
          some { scan with phase := .operand, text := scan.rest.dropWhile isWordChar }
      | .or =>
          some { scan with
            frame := scan.frame.next, phase := .operand,
            text := scan.rest.dropWhile isWordChar }
      | .other => scan.stepClose

/-- An expression that cannot be lowered follows, or a word is cut inside a
character. -/
def panics (scan : Scan) : Bool :=
  match scan.phase with
  | .operand =>
      match lexExpression scan.rest with
      | some (some expr, _) => expr.isTilde
      | _ => false
  | .connective => connective scan.rest == .cut

/-- The whole text has been read. -/
def accepts (scan : Scan) : Bool :=
  scan.phase == .connective && scan.outer.isEmpty && scan.rest.isEmpty

/-- The machine gets from one state to another. -/
def Runs : Scan → Scan → Prop := ReflTransGen fun scan scan' => scan.step = some scan'

end Scan

/-! ## Runs -/

/-- No value starts with a parenthesis. -/
theorem lexExpression_parenthesis (text : Text) :
    lexExpression ('(' :: text) = none := by
  have hkey : ∀ word, MarkerValue.fromStr ('(' :: word) = none := by
    intro word
    unfold MarkerValue.fromStr
    rw [Option.map_eq_none_iff, List.find?_eq_none]
    intro entry hentry heq
    have hname : entry.1.toList.head? = some '(' := by
      rw [of_decide_eq_true heq]
      rfl
    exact absurd hname ((by decide : ∀ entry ∈ reservedValues,
      ¬ entry.1.toList.head? = some '(') entry hentry)
  have hvalue : lexValue ('(' :: text) = none := by
    rw [lexValue, if_neg (by decide), lexKey,
      List.takeWhile_cons_of_pos (by decide), hkey]
    rfl
  rw [lexExpression, List.dropWhile_cons_of_neg (by decide), hvalue]
  rfl

namespace Scan

variable {scan scan' : Scan}

theorem Runs.refl (scan : Scan) : Runs scan scan := ReflTransGen.refl

theorem Runs.trans {middle last : Scan} (hfirst : Runs scan middle)
    (hlast : Runs middle last) : Runs scan last :=
  ReflTransGen.trans hfirst hlast

theorem Runs.one (hstep : scan.step = some scan') : Runs scan scan' :=
  ReflTransGen.single hstep

/-- A run has one end. -/
theorem Runs.end_unique {last last' : Scan} (hruns : Runs scan last)
    (hruns' : Runs scan last') (hstop : last.step = none) (hstop' : last'.step = none) :
    last = last' := by
  have hfunctional : Relator.RightUnique fun scan scan' : Scan =>
      scan.step = some scan' := by
    intro scan left right hleft hright
    exact Option.some.inj (hleft.symm.trans hright)
  have hstuck : ∀ {last other : Scan}, last.step = none → Runs last other →
      last = other := by
    intro last other hnone hrest
    rcases hrest.cases_head with heq | ⟨next, hstep, -⟩
    · exact heq
    · rw [hnone] at hstep
      cases hstep
  rcases hruns.total_of_right_unique hfunctional hruns' with hrest | hrest
  · exact hstuck hstop hrest
  · exact (hstuck hstop' hrest).symm

theorem step_of_panics (hpanics : scan.panics = true) : scan.step = none := by
  unfold panics at hpanics
  unfold step
  cases hphase : scan.phase with
  | operand =>
      simp only [hphase] at hpanics ⊢
      cases hlex : lexExpression scan.rest with
      | none =>
          rw [hlex] at hpanics
          cases hpanics
      | some read =>
          obtain ⟨_ | expr, text⟩ := read
          · rw [hlex] at hpanics
            cases hpanics
          · have hstop : scan.stepExpression = none := by
              rw [hlex] at hpanics
              simp only [stepExpression, hlex]
              exact if_pos hpanics
            cases hrest : scan.rest with
            | nil => exact hstop
            | cons c rest =>
                dsimp only
                split
                · rename_i hopen
                  rw [hrest, hopen, lexExpression_parenthesis] at hlex
                  cases hlex
                · exact hstop
  | connective =>
      simp only [hphase] at hpanics ⊢
      rw [beq_iff_eq.mp hpanics]

/-- A run that stops without a panic has none on its way. -/
theorem Runs.not_panics {last : Scan} (hruns : Runs scan last) (hstop : last.step = none)
    (hlast : last.panics = false) (hruns' : Runs scan scan') :
    scan'.panics = false := by
  rw [← Bool.not_eq_true]
  intro hpanics
  have hsame := hruns'.end_unique hruns (step_of_panics hpanics) hstop
  rw [hsame, hlast] at hpanics
  cases hpanics

theorem step_of_accepts (haccepts : scan.accepts = true) : scan.step = none := by
  simp only [accepts, Bool.and_eq_true, beq_iff_eq, List.isEmpty_iff] at haccepts
  obtain ⟨⟨hphase, houter⟩, hrest⟩ := haccepts
  have hother : connective ([] : Text) = .other := rfl
  simp only [step, hphase, hrest, hother, stepClose, houter]

theorem panics_of_accepts (haccepts : scan.accepts = true) : scan.panics = false := by
  simp only [accepts, Bool.and_eq_true, beq_iff_eq, List.isEmpty_iff] at haccepts
  obtain ⟨⟨hphase, houter⟩, hrest⟩ := haccepts
  have hother : connective ([] : Text) = .other := rfl
  simp only [panics, hphase, hrest, hother]
  rfl

end Scan

end Machine

end Uv.Pep508
