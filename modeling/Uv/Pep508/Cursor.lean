import Uv.Pep508.Marker

/-!
# The cursor

A cursor reads a text character by character and counts bytes.  Texts are lists
of characters, so a slice of the input is given by two byte offsets that need not
lie between two characters; `none` stands for the panic of such a slice.
-/

namespace Uv.Pep508

open Uv.Pep440

/-! ## Byte offsets -/

def byteLength (text : Text) : ℕ := (text.map Char.utf8Size).sum

/-- What follows the first bytes. -/
def dropBytes : Text → ℕ → Option Text
  | text, 0 => some text
  | [], _ + 1 => none
  | c :: rest, n + 1 =>
      if c.utf8Size ≤ n + 1 then dropBytes rest (n + 1 - c.utf8Size) else none

/-- The first bytes. -/
def takeBytes : Text → ℕ → Option Text
  | _, 0 => some []
  | [], _ + 1 => none
  | c :: rest, n + 1 =>
      if c.utf8Size ≤ n + 1 then
        (takeBytes rest (n + 1 - c.utf8Size)).map (c :: ·)
      else none

@[simp]
theorem byteLength_nil : byteLength [] = 0 := rfl

@[simp]
theorem byteLength_cons (c : Char) (text : Text) :
    byteLength (c :: text) = c.utf8Size + byteLength text := by
  simp [byteLength]

@[simp]
theorem byteLength_append (left right : Text) :
    byteLength (left ++ right) = byteLength left + byteLength right := by
  simp [byteLength]

theorem dropBytes_append (left right : Text) :
    dropBytes (left ++ right) (byteLength left) = some right := by
  induction left with
  | nil =>
      cases right <;> rfl
  | cons c left ih =>
      have hpos := c.utf8Size_pos
      obtain ⟨n, hn⟩ : ∃ n, byteLength (c :: left) = n + 1 :=
        ⟨byteLength (c :: left) - 1, by rw [byteLength_cons]; omega⟩
      rw [hn, List.cons_append, dropBytes, ← hn, byteLength_cons, if_pos (by omega),
        Nat.add_sub_cancel_left, ih]

theorem takeBytes_append (left right : Text) :
    takeBytes (left ++ right) (byteLength left) = some left := by
  induction left with
  | nil =>
      cases right <;> rfl
  | cons c left ih =>
      have hpos := c.utf8Size_pos
      obtain ⟨n, hn⟩ : ∃ n, byteLength (c :: left) = n + 1 :=
        ⟨byteLength (c :: left) - 1, by rw [byteLength_cons]; omega⟩
      rw [hn, List.cons_append, takeBytes, ← hn, byteLength_cons, if_pos (by omega),
        Nat.add_sub_cancel_left, ih]
      rfl

/-- The first bytes are the characters they belong to. -/
theorem takeBytes_eq_some {text slice : Text} {n : ℕ}
    (htake : takeBytes text n = some slice) :
    byteLength slice = n ∧ slice <+: text := by
  induction text generalizing n slice with
  | nil =>
      cases n with
      | zero =>
          cases htake
          exact ⟨rfl, List.nil_prefix⟩
      | succ n => cases htake
  | cons c text ih =>
      cases n with
      | zero =>
          cases htake
          exact ⟨rfl, List.nil_prefix⟩
      | succ n =>
          rw [takeBytes] at htake
          split at htake
          · rename_i hle
            obtain ⟨rest, hrest, rfl⟩ := Option.map_eq_some_iff.mp htake
            obtain ⟨hlength, hprefix⟩ := ih hrest
            refine ⟨?_, List.cons_prefix_cons.mpr ⟨rfl, hprefix⟩⟩
            rw [byteLength_cons, hlength]
            omega
          · cases htake

/-! ## The cursor -/

/-- A cursor over a text: the whole text, what is left of it and the byte
position. -/
structure Cursor where
  input : Text
  chars : Text
  pos : ℕ

namespace Cursor

def new (input : Text) : Cursor := ⟨input, input, 0⟩

/-- `&input[start..start + len]`. -/
def slice (cursor : Cursor) (start len : ℕ) : Option Text :=
  (dropBytes cursor.input start).bind (takeBytes · len)

def peek (cursor : Cursor) : Option (ℕ × Char) :=
  cursor.chars.head?.map (cursor.pos, ·)

def peekChar (cursor : Cursor) : Option Char := cursor.chars.head?

def next (cursor : Cursor) : Option (ℕ × Char) × Cursor :=
  match cursor.chars with
  | [] => (none, cursor)
  | c :: rest =>
      (some (cursor.pos, c),
        { cursor with chars := rest, pos := cursor.pos + c.utf8Size })

/-- Eats the next character if it matches the token. -/
def eatChar (cursor : Cursor) (token : Char) : Option ℕ × Cursor :=
  match cursor.peek with
  | none => (none, cursor)
  | some (startPos, peekChar) =>
      if peekChar = token then (some startPos, cursor.next.2) else (none, cursor)

/-- Call `next` as long as the condition is met. -/
def nextWhile (condition : Char → Bool) (input : Text) : Text → ℕ → Cursor
  | [], pos => ⟨input, [], pos⟩
  | c :: rest, pos =>
      if condition c then nextWhile condition input rest (pos + c.utf8Size)
      else ⟨input, c :: rest, pos⟩

def eatWhitespace (cursor : Cursor) : Cursor :=
  nextWhile VersionSpecifier.isWhitespace cursor.input cursor.chars cursor.pos

def remaining (cursor : Cursor) : ℕ := cursor.chars.length

/-- The start and the number of characters that meet the condition. -/
def peekWhile (cursor : Cursor) (condition : Char → Bool) : ℕ × ℕ :=
  (cursor.pos, (cursor.chars.takeWhile condition).length)

/-- The start and the number of bytes that meet the condition. -/
def takeWhile (cursor : Cursor) (condition : Char → Bool) : (ℕ × ℕ) × Cursor :=
  let after := nextWhile condition cursor.input cursor.chars cursor.pos
  ((cursor.pos, after.pos - cursor.pos), after)

/-! ### What a cursor reads -/

/-- The position is that of the characters that are left. -/
def Valid (cursor : Cursor) : Prop :=
  ∃ consumed, cursor.input = consumed ++ cursor.chars ∧
    cursor.pos = byteLength consumed

variable {cursor : Cursor} {condition : Char → Bool}

theorem valid_new (input : Text) : (new input).Valid := ⟨[], rfl, rfl⟩

theorem nextWhile_eq (input chars : Text) (pos : ℕ) :
    nextWhile condition input chars pos =
      ⟨input, chars.dropWhile condition,
        pos + byteLength (chars.takeWhile condition)⟩ := by
  induction chars generalizing pos with
  | nil => rfl
  | cons c chars ih =>
      rw [nextWhile]
      split
      · rename_i hc
        rw [ih, List.dropWhile_cons_of_pos hc, List.takeWhile_cons_of_pos hc,
          byteLength_cons, Nat.add_assoc]
      · rename_i hc
        rw [List.dropWhile_cons_of_neg hc, List.takeWhile_cons_of_neg hc]
        rfl

theorem Valid.append {taken rest : Text} (hvalid : cursor.Valid)
    (hchars : cursor.chars = taken ++ rest) :
    Valid ⟨cursor.input, rest, cursor.pos + byteLength taken⟩ := by
  obtain ⟨consumed, hinput, hpos⟩ := hvalid
  refine ⟨consumed ++ taken, ?_, ?_⟩
  · rw [hinput, hchars, List.append_assoc]
  · rw [hpos, byteLength_append]

theorem Valid.nextWhile (hvalid : cursor.Valid) :
    (nextWhile condition cursor.input cursor.chars cursor.pos).Valid := by
  rw [nextWhile_eq]
  exact hvalid.append (List.takeWhile_append_dropWhile ..).symm

/-- A slice from the position on is one of the characters that are left. -/
theorem Valid.slice (hvalid : cursor.Valid) (len : ℕ) :
    cursor.slice cursor.pos len = takeBytes cursor.chars len := by
  obtain ⟨consumed, hinput, hpos⟩ := hvalid
  rw [Cursor.slice, hinput, hpos, dropBytes_append]
  rfl

theorem Valid.slice_of_prefix (hvalid : cursor.Valid) {taken rest : Text}
    (hchars : cursor.chars = taken ++ rest) :
    cursor.slice cursor.pos (byteLength taken) = some taken := by
  rw [hvalid.slice, hchars, takeBytes_append]

end Cursor

end Uv.Pep508
