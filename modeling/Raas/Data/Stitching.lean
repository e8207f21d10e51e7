import Raas.Data.Window

namespace Raas.Data

/-! Rebuilding a byte string from pieces of it, written by position. -/

/-- A file that is written piece by piece: what stands at each position so far. -/
abbrev Sparse (α : Type _) := Nat → Option α

def Sparse.empty : Sparse α := fun _ => none

def Sparse.writeAt (file : Sparse α) (offset : Nat) (piece : List α) : Sparse α := fun position =>
  if offset ≤ position ∧ position < offset + piece.length then piece[position - offset]? else file position

/-- Write all pieces in the order given; a later piece overwrites. -/
def Sparse.writeAll (file : Sparse α) (pieces : List (Nat × List α)) : Sparse α :=
  pieces.foldl (fun file piece => file.writeAt piece.1 piece.2) file

def PieceOf (whole : List α) (piece : Nat × List α) : Prop :=
  piece.1 + piece.2.length ≤ whole.length ∧ piece.2 = window whole piece.1 (piece.1 + piece.2.length)

variable {whole : List α} {file : Sparse α} {piece : Nat × List α} {pieces : List (Nat × List α)} {position : Nat}

theorem Sparse.writeAll_cons (file : Sparse α) (piece : Nat × List α) (rest : List (Nat × List α)) :
    file.writeAll (piece :: rest) = (file.writeAt piece.1 piece.2).writeAll rest := rfl

theorem Sparse.writeAt_piece (pieceOf : PieceOf whole piece)
    (covered : piece.1 ≤ position ∧ position < piece.1 + piece.2.length) :
    file.writeAt piece.1 piece.2 position = whole[position]? := by
  have content := getElem?_window whole piece.1 (piece.1 + piece.2.length) (position - piece.1)
  rw [if_pos (by omega), ← pieceOf.2, Nat.add_sub_cancel' covered.1] at content
  rw [writeAt, if_pos covered, content]

theorem Sparse.writeAll_agrees (agrees : file position = whole[position]?)
    (piecesOf : ∀ piece ∈ pieces, PieceOf whole piece) :
    file.writeAll pieces position = whole[position]? := by
  induction pieces generalizing file with
  | nil => exact agrees
  | cons piece rest ih =>
      rw [writeAll_cons]
      refine ih ?_ fun other member => piecesOf other (by simp [member])
      by_cases covered : piece.1 ≤ position ∧ position < piece.1 + piece.2.length
      · exact writeAt_piece (piecesOf piece (by simp)) covered
      · rw [writeAt, if_neg covered]
        exact agrees

theorem Sparse.writeAll_covered (piecesOf : ∀ piece ∈ pieces, PieceOf whole piece)
    (covered : ∃ piece ∈ pieces, piece.1 ≤ position ∧ position < piece.1 + piece.2.length) :
    file.writeAll pieces position = whole[position]? := by
  induction pieces generalizing file with
  | nil => simp at covered
  | cons first rest ih =>
      have restOf : ∀ piece ∈ rest, PieceOf whole piece := fun other member => piecesOf other (by simp [member])
      obtain ⟨piece, member, here⟩ := covered
      rw [writeAll_cons]
      rcases List.mem_cons.mp member with rfl | later
      · exact writeAll_agrees (writeAt_piece (piecesOf piece (by simp)) here) restOf
      · exact ih restOf ⟨piece, later, here⟩

/-- Pieces that cover the whole rebuild it, in any order and with any overlaps. -/
theorem Sparse.writeAll_rebuilds (piecesOf : ∀ piece ∈ pieces, PieceOf whole piece)
    (cover : ∀ position < whole.length, ∃ piece ∈ pieces, piece.1 ≤ position ∧ position < piece.1 + piece.2.length) :
    Sparse.empty.writeAll pieces = fun position => whole[position]? := by
  funext position
  by_cases inside : position < whole.length
  · exact writeAll_covered piecesOf (cover position inside)
  · refine writeAll_agrees ?_ piecesOf
    rw [List.getElem?_eq_none (by omega)]
    rfl

end Raas.Data
