import Mathlib.Data.List.Infix
import Mathlib.Data.List.Sort
import Mathlib.Data.List.TakeWhile

/-! Lifting imports: the first pass of `format_source` (`relon-fmt`).

The pass moves all `#import` directives of a document above its other directives. It does so
by edits on the source text: one that inserts the imports where the first directive begins,
and one for each import that deletes it where it was. The edits are computed against the
source and applied one after another, from the right to the left.

The edits of the first pass are applied together with those of the second, which reorder the
fields of records. Each of these lies in the arguments of a decorator between two directives,
in a decorator within a directive, or in the rest of the document. Edits of nested records
overlap, and the outer one is then applied at a range computed for another text; a document
`Fits` where no such range reaches beyond the stretch it is in. -/
namespace Relon.Fmt
open List

/-- Text by code points; an offset is one between two tokens. -/
abbrev Text := List Char

/-! ### Edits -/

structure SourceEdit where
  start : Nat
  stop : Nat
  replacement : Text
  deriving DecidableEq

/-- `String::replace_range`. -/
def SourceEdit.apply (out : Text) (edit : SourceEdit) : Text :=
  out.take edit.start ++ edit.replacement ++ out.drop edit.stop

/-- `sort_by_key` by the negated start, which leaves edits with the same start in order. -/
def byStart (a b : SourceEdit) : Prop := b.start ≤ a.start

instance : DecidableRel byStart := fun a b => inferInstanceAs (Decidable (b.start ≤ a.start))

def applyEdits (source : Text) (edits : List SourceEdit) : Text :=
  (edits.insertionSort byStart).foldl SourceEdit.apply source

/-- The edits of a stretch of text that begins at an offset. -/
def SourceEdit.shift (n : Nat) (e : SourceEdit) : SourceEdit := ⟨n + e.start, n + e.stop, e.replacement⟩

/-- Applied one after another, the edits stay inside the text. -/
def fits : Text → List SourceEdit → Bool
  | _, [] => true
  | text, e :: edits => e.start ≤ e.stop && e.stop ≤ text.length && fits (SourceEdit.apply text e) edits

/-! ### The pass -/

/-- A `DIRECTIVE` node: `first_significant_offset`, the end of its range and its name. -/
structure Directive where
  start : Nat
  stop : Nat
  name : Option String
  deriving DecidableEq

def Directive.isImport (d : Directive) : Bool := d.name = some "import"

def isWhitespace (c : Char) : Bool :=
  let n := c.toNat
  9 ≤ n && n ≤ 13 || n = 0x20 || n = 0x85 || n = 0xA0 || n = 0x1680 ||
    0x2000 ≤ n && n ≤ 0x200A || n = 0x2028 || n = 0x2029 || n = 0x202F || n = 0x205F || n = 0x3000

def trim (text : Text) : Text :=
  ((text.dropWhile isWhitespace).reverse.dropWhile isWhitespace).reverse

/-- `contains("//") || contains("/*")`. -/
def hasComment (text : Text) : Bool := "//".toList <:+: text ∨ "/*".toList <:+: text

/-- `&source[start..stop]`. -/
def slice (source : Text) (start stop : Nat) : Text := (source.take stop).drop start

/-- The lifted block: each import's text, separated and ended by a newline. -/
def liftedBlock (source : Text) (imports : List Directive) : Text :=
  List.intercalate ['\n'] (imports.map fun d => trim (slice source d.start d.stop)) ++ ['\n']

def collectLiftImportEdits (directives : List Directive) (source : Text) : List SourceEdit :=
  match directives with
  | [] => []
  | first :: _ =>
    let imports := directives.filter Directive.isImport
    match imports.getLast? with
    | none => []
    | some last =>
      let leading := (directives.takeWhile Directive.isImport).length
      if leading = imports.length then []
      else if hasComment (slice source first.start last.stop) then []
      else
        ⟨first.start, first.start, liftedBlock source imports⟩ ::
          imports.map fun d => ⟨d.start, d.stop, []⟩

/-! ### Documents -/

/-- A directive and what is between it and the one before: `before`, whatever belongs to
other nodes, and `trivia`, the whitespace and comments its own node begins with. Its text
begins and ends with a token. The edits of the second pass replace the bodies of dicts, so
each begins behind a token of the stretch it lies in; an import has no dict. -/
structure Piece where
  before : Text
  beforeReorder : List SourceEdit
  trivia : Text
  text : Text
  textReorder : List SourceEdit
  name : Option String
  token : text ≠ []
  trimmed : trim text = text
  beforeInside : ∀ e ∈ beforeReorder, e.start < before.length
  textInside : ∀ e ∈ textReorder, 0 < e.start ∧ e.start < text.length
  plain : name = some "import" → textReorder = []

/-- What `parse_strict` finds: the directives, and the rest of the document behind them. -/
structure Document where
  pieces : List Piece
  rest : Text
  restReorder : List SourceEdit

def Piece.isImport (p : Piece) : Bool := p.name = some "import"

def Piece.gap (p : Piece) : Text := p.before ++ p.trivia

/-- The text of some pieces. -/
def spelled : List Piece → Text
  | [] => []
  | p :: ps => p.gap ++ p.text ++ spelled ps

def Document.source (doc : Document) : Text := spelled doc.pieces ++ doc.rest

/-- The nodes of some pieces that begin at an offset. -/
def nodesFrom (n : Nat) : List Piece → List Directive
  | [] => []
  | p :: ps =>
    ⟨n + p.gap.length, n + p.gap.length + p.text.length, p.name⟩ ::
      nodesFrom (n + (p.gap.length + p.text.length)) ps

@[simp] theorem isImport_node (start stop : Nat) (p : Piece) :
    Directive.isImport ⟨start, stop, p.name⟩ = p.isImport := rfl

def Document.directives (doc : Document) : List Directive := nodesFrom 0 doc.pieces

/-- The edits of the second pass in a piece that begins at an offset. -/
def Piece.reorderAt (n : Nat) (p : Piece) : List SourceEdit :=
  p.beforeReorder.map (SourceEdit.shift n) ++ p.textReorder.map (SourceEdit.shift (n + p.gap.length))

def reorderFrom (n : Nat) : List Piece → List SourceEdit
  | [] => []
  | p :: ps => p.reorderAt n ++ reorderFrom (n + (p.gap.length + p.text.length)) ps

/-- `collect_dict_reorder_edits_root`, which goes through the document in order. -/
def Document.reorder (doc : Document) : List SourceEdit :=
  reorderFrom 0 doc.pieces ++ doc.restReorder.map (SourceEdit.shift (spelled doc.pieces).length)

/-- The source after the edits of both passes. -/
def Document.edited (doc : Document) : Text :=
  applyEdits doc.source (collectLiftImportEdits doc.directives doc.source ++ doc.reorder)

def Piece.Fits (p : Piece) : Prop :=
  fits p.before (p.beforeReorder.insertionSort byStart) = true ∧
    fits p.text (p.textReorder.insertionSort byStart) = true

instance (p : Piece) : Decidable p.Fits := inferInstanceAs (Decidable (_ ∧ _))

/-- The edits of the second pass stay in the stretches they lie in, up to the last directive. -/
def Document.Fits (doc : Document) : Prop := ∀ p ∈ doc.pieces, p.Fits

/-- What the second pass alone makes of the text before a directive. -/
def Piece.newGap (p : Piece) : Text := applyEdits p.before p.beforeReorder ++ p.trivia

/-- What the second pass alone makes of a directive. -/
def Piece.newText (p : Piece) : Text := applyEdits p.text p.textReorder

theorem newText_of_isImport {p : Piece} (import_ : p.isImport = true) : p.newText = p.text := by
  rw [Piece.newText, p.plain (by simpa [Piece.isImport] using import_)]
  rfl

/-! ### Applying edits in order -/

variable {late early edits : List SourceEdit}

theorem orderedInsert_append {a : SourceEdit} (above : ∀ b ∈ late, a.start < b.start) :
    (late ++ early).orderedInsert byStart a = late ++ early.orderedInsert byStart a := by
  induction late with
  | nil => rfl
  | cons b late ih =>
    have below : ¬ byStart a b := Nat.not_le_of_lt (above b (by simp))
    simp only [cons_append, List.orderedInsert, if_neg below]
    rw [ih fun c mem => above c (mem_cons_of_mem _ mem)]

theorem orderedInsert_append_of_le {a : SourceEdit} (below : ∀ b ∈ early, b.start ≤ a.start) :
    (late ++ early).orderedInsert byStart a = late.orderedInsert byStart a ++ early := by
  induction late with
  | nil =>
    cases early with
    | nil => rfl
    | cons b early => exact if_pos (below b (by simp))
  | cons b late ih =>
    simp only [cons_append, List.orderedInsert]
    split
    · rfl
    · rw [ih, cons_append]

/-- Two lists of edits that are each divided at one offset are divided there when they are
sorted together. -/
theorem sort_apart {a a' b b' : List SourceEdit} {bound : Nat}
    (early : ∀ e ∈ a ++ b, e.start < bound) (late : ∀ e ∈ a' ++ b', bound ≤ e.start) :
    ((a ++ a') ++ (b ++ b')).insertionSort byStart =
      (a' ++ b').insertionSort byStart ++ (a ++ b).insertionSort byStart := by
  have sorted : ∀ {x : SourceEdit} {l : List SourceEdit}, x ∈ l.insertionSort byStart → x ∈ l :=
    fun mem => (mem_insertionSort byStart).mp mem
  induction a with
  | cons e a ih =>
    rw [cons_append, cons_append, insertionSort_cons, cons_append, insertionSort_cons,
      ih (fun x mem => early x (mem_cons_of_mem _ mem)), orderedInsert_append]
    intro x mem
    exact Nat.lt_of_lt_of_le (early e (by simp)) (late x (sorted mem))
  | nil =>
    induction a' with
    | cons e a' ih =>
      rw [nil_append, cons_append, insertionSort_cons, cons_append, insertionSort_cons,
        ← nil_append a', ih (fun x mem => late x (mem_cons_of_mem _ mem)), orderedInsert_append_of_le]
      · rfl
      · intro x mem
        exact (Nat.lt_of_lt_of_le (early x (sorted mem)) (late e (by simp))).le
    | nil =>
      simp only [nil_append] at early late ⊢
      induction b with
      | nil => simp
      | cons e b ih =>
        rw [cons_append, insertionSort_cons, insertionSort_cons,
          ih (fun x mem => early x (mem_cons_of_mem _ mem)), orderedInsert_append]
        intro x mem
        exact Nat.lt_of_lt_of_le (early e (by simp)) (late x (sorted mem))

theorem foldl_apply_front {m : Nat} {text : Text} (behind : ∀ e ∈ edits, m ≤ e.start)
    (long : m ≤ text.length) : ∃ tail, edits.foldl SourceEdit.apply text = text.take m ++ tail := by
  induction edits generalizing text with
  | nil => exact ⟨text.drop m, (take_append_drop m text).symm⟩
  | cons e edits ih =>
    have start : m ≤ e.start := behind e (by simp)
    have front : (SourceEdit.apply text e).take m = text.take m := by
      rw [SourceEdit.apply, append_assoc, take_append_of_le_length, take_take,
        Nat.min_eq_left start]
      rw [length_take]
      omega
    have long' : m ≤ (SourceEdit.apply text e).length := by
      simp only [SourceEdit.apply, length_append, length_take]
      omega
    obtain ⟨tail, eq⟩ := ih (fun c mem => behind c (mem_cons_of_mem _ mem)) long'
    exact ⟨tail, by rw [foldl_cons, eq, front]⟩

theorem apply_at {front old tail new : Text} {start stop : Nat} (begins : start = front.length)
    (ends : stop = front.length + old.length) :
    SourceEdit.apply (front ++ old ++ tail) ⟨start, stop, new⟩ = front ++ new ++ tail := by
  subst begins ends
  rw [SourceEdit.apply, append_assoc front old, take_left, ← append_assoc,
    ← length_append, drop_left]

theorem apply_shift {front text tail : Text} {e : SourceEdit} (ordered : e.start ≤ e.stop)
    (inside : e.stop ≤ text.length) :
    SourceEdit.apply (front ++ text ++ tail) (e.shift front.length) =
      front ++ SourceEdit.apply text e ++ tail := by
  have begins : (front ++ text ++ tail).take (front.length + e.start) = front ++ text.take e.start := by
    rw [append_assoc, take_length_add_append, take_append_of_le_length (by omega)]
  have ends : (front ++ text ++ tail).drop (front.length + e.stop) = text.drop e.stop ++ tail := by
    rw [append_assoc, drop_length_add_append, drop_append_of_le_length inside]
  rw [SourceEdit.apply, SourceEdit.shift, begins, ends, SourceEdit.apply]
  simp only [append_assoc]

theorem foldl_shift {front text tail : Text} (fit : fits text edits = true) :
    (edits.map (SourceEdit.shift front.length)).foldl SourceEdit.apply (front ++ text ++ tail) =
      front ++ edits.foldl SourceEdit.apply text ++ tail := by
  induction edits generalizing text with
  | nil => rfl
  | cons e edits ih =>
    simp only [fits, Bool.and_eq_true, decide_eq_true_eq] at fit
    rw [map_cons, foldl_cons, foldl_cons, apply_shift fit.1.1 fit.1.2, ih fit.2]

/-- The edits of a stretch of text change that stretch as they change it alone. -/
theorem apply_stretch {front text tail : Text} {n : Nat} (begins : n = front.length)
    (fit : fits text (edits.insertionSort byStart) = true) :
    ((edits.map (SourceEdit.shift n)).insertionSort byStart).foldl SourceEdit.apply
        (front ++ text ++ tail) = front ++ applyEdits text edits ++ tail := by
  have sorted : (edits.insertionSort byStart).map (SourceEdit.shift n) =
      (edits.map (SourceEdit.shift n)).insertionSort byStart :=
    map_insertionSort _ _ _ _ fun a _ b _ => (Nat.add_le_add_iff_left (n := n)).symm
  rw [← sorted, begins, foldl_shift fit, applyEdits]

/-! ### The edits of the pass -/

section
variable {cut : Piece → Bool}

/-- The edit that deletes a piece that begins at an offset, if it is one to `cut`. -/
def Piece.deletionAt (cut : Piece → Bool) (n : Nat) (p : Piece) : List SourceEdit :=
  if cut p then [⟨n + p.gap.length, n + p.gap.length + p.text.length, []⟩] else []

def deletionsFrom (cut : Piece → Bool) (n : Nat) : List Piece → List SourceEdit
  | [] => []
  | p :: ps => p.deletionAt cut n ++ deletionsFrom cut (n + (p.gap.length + p.text.length)) ps

/-- What is left of some pieces without those that are cut. -/
def kept (cut : Piece → Bool) : List Piece → Text
  | [] => []
  | p :: ps => p.newGap ++ (if cut p then [] else p.newText) ++ kept cut ps

theorem deletionsFrom_isImport (n : Nat) (ps : List Piece) :
    ((nodesFrom n ps).filter Directive.isImport).map (fun d => ⟨d.start, d.stop, []⟩) =
      deletionsFrom Piece.isImport n ps := by
  induction ps generalizing n with
  | nil => rfl
  | cons p ps ih =>
    rw [nodesFrom, deletionsFrom, Piece.deletionAt, ← ih]
    cases import_ : p.isImport with
    | true =>
      rw [filter_cons_of_pos (by simpa using import_)]
      rfl
    | false =>
      rw [filter_cons_of_neg (by simpa using import_)]
      rfl

theorem spelled_length_cons (p : Piece) (ps : List Piece) :
    (spelled (p :: ps)).length = p.gap.length + p.text.length + (spelled ps).length := by
  simp only [spelled, length_append]

theorem piece_bounds {n : Nat} {p : Piece} {e : SourceEdit} (mem : e ∈ p.deletionAt cut n ++ p.reorderAt n) :
    n ≤ e.start ∧ e.start < n + (p.gap.length + p.text.length) := by
  have size := length_pos_iff.mpr p.token
  have gap : p.gap.length = p.before.length + p.trivia.length := length_append
  simp only [Piece.deletionAt, Piece.reorderAt, mem_append, mem_map] at mem
  obtain mem | ⟨e, mem, rfl⟩ | ⟨e, mem, rfl⟩ := mem
  · split at mem
    · obtain rfl := mem_singleton.mp mem
      show n ≤ n + p.gap.length ∧ n + p.gap.length < _
      omega
    · cases mem
  · have := p.beforeInside e mem
    show n ≤ n + e.start ∧ n + e.start < _
    omega
  · have := p.textInside e mem
    show n ≤ n + p.gap.length + e.start ∧ n + p.gap.length + e.start < _
    omega

theorem pieces_bounds {n : Nat} {ps : List Piece} {e : SourceEdit}
    (mem : e ∈ deletionsFrom cut n ps ++ reorderFrom n ps) :
    n ≤ e.start ∧ e.start < n + (spelled ps).length := by
  induction ps generalizing n with
  | nil => cases mem
  | cons p ps ih =>
    rw [spelled_length_cons]
    simp only [deletionsFrom, reorderFrom, mem_append] at mem ih
    have here : e ∈ p.deletionAt cut n ∨ e ∈ p.reorderAt n →
        n ≤ e.start ∧ e.start < n + (p.gap.length + p.text.length) :=
      fun mem => piece_bounds (mem_append.mpr mem)
    obtain (mem | mem) | (mem | mem) := mem
    · have := here (.inl mem)
      omega
    · have := ih (.inl mem)
      omega
    · have := here (.inr mem)
      omega
    · have := ih (.inr mem)
      omega

/-- The edits of a piece come last, and those of its text before those of what precedes it. -/
theorem sort_piece {n : Nat} {p : Piece} {ps : List Piece} {inserted : List SourceEdit}
    (there : ∀ e ∈ inserted, e.start = n + p.gap.length) :
    ((inserted ++ deletionsFrom cut n (p :: ps)) ++ reorderFrom n (p :: ps)).insertionSort byStart =
      ((deletionsFrom cut (n + (p.gap.length + p.text.length)) ps ++
          reorderFrom (n + (p.gap.length + p.text.length)) ps).insertionSort byStart ++
        (inserted ++ p.deletionAt cut n ++
          p.textReorder.map (SourceEdit.shift (n + p.gap.length))).insertionSort byStart) ++
        (p.beforeReorder.map (SourceEdit.shift n)).insertionSort byStart := by
  have size := length_pos_iff.mpr p.token
  have gap : p.gap.length = p.before.length + p.trivia.length := length_append
  rw [deletionsFrom, reorderFrom, ← append_assoc inserted,
    @sort_apart _ _ _ _ (n + (p.gap.length + p.text.length)), append_assoc (insertionSort _ _)]
  · congr 1
    rw [Piece.reorderAt]
    have apart := @sort_apart [] (inserted ++ p.deletionAt cut n) (p.beforeReorder.map (SourceEdit.shift n))
      (p.textReorder.map (SourceEdit.shift (n + p.gap.length))) (n + p.gap.length) ?_ ?_
    · simpa only [nil_append] using apart
    · intro e mem
      obtain ⟨e', mem', rfl⟩ := mem_map.mp mem
      have := p.beforeInside e' mem'
      show n + e'.start < _
      omega
    · intro e mem
      simp only [mem_append, mem_map, Piece.deletionAt] at mem
      obtain (mem | mem) | ⟨e, mem, rfl⟩ := mem
      · exact (there e mem).ge
      · split at mem
        · obtain rfl := mem_singleton.mp mem
          exact Nat.le_refl _
        · cases mem
      · exact Nat.le_add_right _ _
  · intro e mem
    rw [append_assoc, mem_append] at mem
    obtain mem | mem := mem
    · rw [there e mem]
      omega
    · exact (piece_bounds mem).2
  · exact fun e mem => (pieces_bounds mem).1

theorem apply_before {front tail : Text} {n : Nat} {p : Piece} (begins : n = front.length) (fit : p.Fits) :
    ((p.beforeReorder.map (SourceEdit.shift n)).insertionSort byStart).foldl SourceEdit.apply
        (front ++ p.gap ++ tail) = front ++ p.newGap ++ tail := by
  have stretch := @apply_stretch _ front p.before (p.trivia ++ tail) _ begins fit.1
  simpa only [Piece.gap, Piece.newGap, append_assoc] using stretch

theorem apply_text {front tail : Text} {n : Nat} {p : Piece} (begins : n = front.length) (fit : p.Fits) :
    ((p.textReorder.map (SourceEdit.shift n)).insertionSort byStart).foldl SourceEdit.apply
        (front ++ p.text ++ tail) = front ++ p.newText ++ tail :=
  apply_stretch begins fit.2

theorem apply_pieces {n : Nat} {ps : List Piece} {front tail : Text} (begins : n = front.length)
    (fit : ∀ p ∈ ps, p.Fits) (imports : ∀ p ∈ ps, cut p = true → p.textReorder = []) :
    ((deletionsFrom cut n ps ++ reorderFrom n ps).insertionSort byStart).foldl SourceEdit.apply
        (front ++ spelled ps ++ tail) = front ++ kept cut ps ++ tail := by
  induction ps generalizing n front with
  | nil => simp [deletionsFrom, reorderFrom, spelled, kept]
  | cons p ps ih =>
    have inner := @ih (n + (p.gap.length + p.text.length)) (front ++ p.gap ++ p.text)
      (by simp only [length_append]; omega) (fun q mem => fit q (mem_cons_of_mem _ mem))
      (fun q mem => imports q (mem_cons_of_mem _ mem))
    have sorted := @sort_piece cut n p ps [] (by simp)
    have text : (([] ++ p.deletionAt cut n ++
          p.textReorder.map (SourceEdit.shift (n + p.gap.length))).insertionSort byStart).foldl
          SourceEdit.apply (front ++ p.gap ++ p.text ++ (kept cut ps ++ tail)) =
        front ++ p.gap ++ (if cut p then [] else p.newText) ++ (kept cut ps ++ tail) := by
      rw [nil_append, Piece.deletionAt]
      split
      · next here =>
        rw [imports p (by simp) here]
        exact apply_at (by simp [begins]) (by simp only [begins, length_append])
      · exact apply_text (by simp [begins]) (fit p (by simp))
    simp only [nil_append, spelled, kept, append_assoc] at sorted inner text ⊢
    rw [sorted, foldl_append, inner, foldl_append, text]
    simpa only [append_assoc] using
      @apply_before front ((if cut p then [] else p.newText) ++ (kept cut ps ++ tail)) n p begins
        (fit p (by simp))

end

theorem slices {n : Nat} {ps : List Piece} {front tail : Text} (begins : n = front.length) :
    ((nodesFrom n ps).filter Directive.isImport).map
        (fun d => slice (front ++ spelled ps ++ tail) d.start d.stop) =
      (ps.filter Piece.isImport).map Piece.text := by
  induction ps generalizing n front with
  | nil => rfl
  | cons p ps ih =>
    have step := @ih (n + (p.gap.length + p.text.length)) (front ++ p.gap ++ p.text)
      (by simp only [length_append]; omega)
    have source : front ++ p.gap ++ p.text ++ spelled ps ++ tail =
        front ++ spelled (p :: ps) ++ tail := by
      simp only [spelled, append_assoc]
    rw [source] at step
    have here : slice (front ++ spelled (p :: ps) ++ tail) (n + p.gap.length)
        (n + p.gap.length + p.text.length) = p.text := by
      have start : n + p.gap.length = (front ++ p.gap).length := by simp [begins]
      have stop : n + p.gap.length + p.text.length = (front ++ p.gap ++ p.text).length := by
        simp only [begins, length_append]
      rw [← source, slice, append_assoc _ (spelled ps), stop, take_left, start, drop_left]
    cases import_ : p.isImport with
    | true =>
      rw [nodesFrom, filter_cons_of_pos (by simpa using import_),
        filter_cons_of_pos import_, map_cons, map_cons, step, here]
    | false =>
      rw [nodesFrom, filter_cons_of_neg (by simpa using import_),
        filter_cons_of_neg (by simp [import_]), step]

namespace Document

def imports (doc : Document) : List Piece := doc.pieces.filter Piece.isImport

def others (doc : Document) : List Piece := doc.pieces.filter fun p => !p.isImport

/-- All imports come first already. -/
def Packed (doc : Document) : Prop :=
  (doc.pieces.takeWhile Piece.isImport).length = doc.imports.length

instance (doc : Document) : Decidable doc.Packed :=
  inferInstanceAs (Decidable (_ = doc.imports.length))

/-- The text the pass looks for comments in: from the first directive to the end of the last
import. -/
def block (doc : Document) : Text :=
  match doc.directives, (doc.directives.filter Directive.isImport).getLast? with
  | first :: _, some last => slice doc.source first.start last.stop
  | _, _ => []

end Document

/-- The lifted block, from the pieces. -/
def lifted (ps : List Piece) : Text := List.intercalate ['\n'] (ps.map Piece.text) ++ ['\n']

theorem liftedBlock_eq (doc : Document) :
    liftedBlock doc.source (doc.directives.filter Directive.isImport) = lifted doc.imports := by
  have texts : (doc.directives.filter Directive.isImport).map
      (fun d => slice doc.source d.start d.stop) = doc.imports.map Piece.text :=
    @slices 0 doc.pieces [] doc.rest rfl
  have trimmed : (doc.imports.map Piece.text).map trim = doc.imports.map Piece.text := by
    rw [map_map]
    exact map_congr_left fun p _ => p.trimmed
  rw [liftedBlock, lifted, ← trimmed, ← texts, map_map]
  rfl

theorem nodesFrom_filter_length (n : Nat) (ps : List Piece) :
    ((nodesFrom n ps).filter Directive.isImport).length = (ps.filter Piece.isImport).length := by
  have texts := congrArg List.length (@slices n ps (List.replicate n ' ') [] (by simp))
  simpa using texts

theorem nodesFrom_takeWhile_length (n : Nat) (ps : List Piece) :
    ((nodesFrom n ps).takeWhile Directive.isImport).length =
      (ps.takeWhile Piece.isImport).length := by
  induction ps generalizing n with
  | nil => rfl
  | cons p ps ih =>
    rw [nodesFrom, takeWhile_cons, takeWhile_cons, isImport_node]
    cases p.isImport with
    | true => simp [ih]
    | false => rfl

theorem takeWhile_length_le_filter {α : Type} (test : α → Bool) (xs : List α) :
    (xs.takeWhile test).length ≤ (xs.filter test).length := by
  have all : (xs.takeWhile test).filter test = xs.takeWhile test :=
    filter_eq_self.mpr fun _ mem => mem_takeWhile_imp mem
  rw [← all]
  exact ((takeWhile_sublist test).filter test).length_le

theorem collect_eq {doc : Document} {p : Piece} {ps : List Piece} (pieces : doc.pieces = p :: ps)
    (unpacked : ¬ doc.Packed) (quiet : hasComment doc.block = false) :
    collectLiftImportEdits doc.directives doc.source =
      ⟨p.gap.length, p.gap.length, lifted doc.imports⟩ ::
        deletionsFrom Piece.isImport 0 (p :: ps) := by
  have first : doc.directives = ⟨p.gap.length, p.gap.length + p.text.length, p.name⟩ ::
      nodesFrom (p.gap.length + p.text.length) ps := by
    simp [Document.directives, pieces, nodesFrom]
  have some_ : ∃ last, (doc.directives.filter Directive.isImport).getLast? = some last := by
    apply Option.ne_none_iff_exists'.mp
    intro none_
    have empty : doc.imports.length = 0 := by
      rw [Document.imports, ← nodesFrom_filter_length 0]
      exact congrArg List.length (List.getLast?_eq_none_iff.mp none_)
    have short := takeWhile_length_le_filter Piece.isImport doc.pieces
    exact unpacked (Nat.le_antisymm short (by omega))
  obtain ⟨last, some_⟩ := some_
  have blocked : hasComment (slice doc.source p.gap.length last.stop) = false := by
    rw [Document.block, some_, first] at quiet
    exact quiet
  have leading : ¬ (doc.directives.takeWhile Directive.isImport).length =
      (doc.directives.filter Directive.isImport).length := by
    rw [Document.directives, nodesFrom_takeWhile_length, nodesFrom_filter_length]
    exact unpacked
  rw [← liftedBlock_eq, ← pieces, ← deletionsFrom_isImport, ← Document.directives]
  rw [first] at leading some_ ⊢
  simp only [collectLiftImportEdits, some_, if_neg leading, blocked]
  rfl

/-! ### The edited text -/

section
variable {doc : Document}

theorem edited_eq {lift : List SourceEdit} (lifts : collectLiftImportEdits doc.directives doc.source = lift)
    (before : ∀ e ∈ lift, e.start < (spelled doc.pieces).length) :
    ∃ tail, doc.edited = ((lift ++ reorderFrom 0 doc.pieces).insertionSort byStart).foldl
      SourceEdit.apply (spelled doc.pieces ++ tail) := by
  have apart := @sort_apart lift [] (reorderFrom 0 doc.pieces)
    (doc.restReorder.map (SourceEdit.shift (spelled doc.pieces).length)) (spelled doc.pieces).length ?_ ?_
  · have behind : ∀ e ∈ (doc.restReorder.map
        (SourceEdit.shift (spelled doc.pieces).length)).insertionSort byStart,
        (spelled doc.pieces).length ≤ e.start := by
      intro e mem
      obtain ⟨e, -, rfl⟩ := mem_map.mp ((mem_insertionSort byStart).mp mem)
      exact Nat.le_add_right _ _
    have long : (spelled doc.pieces).length ≤ doc.source.length := by
      rw [Document.source, length_append]
      omega
    obtain ⟨tail, eq⟩ := foldl_apply_front behind long
    refine ⟨tail, ?_⟩
    rw [append_nil, nil_append] at apart
    rw [Document.edited, lifts, Document.reorder, applyEdits, apart, foldl_append, eq,
      Document.source, take_left]
  · intro e mem
    obtain mem | mem := mem_append.mp mem
    · exact before e mem
    · have bounds := @pieces_bounds (fun _ => false) 0 doc.pieces e (mem_append_right _ mem)
      omega
  · intro e mem
    rw [nil_append] at mem
    obtain ⟨e, -, rfl⟩ := mem_map.mp mem
    exact Nat.le_add_right _ _

theorem deletionsFrom_none (n : Nat) (ps : List Piece) : deletionsFrom (fun _ => false) n ps = [] := by
  induction ps generalizing n with
  | nil => rfl
  | cons p ps ih => simp [deletionsFrom, Piece.deletionAt, ih]

theorem edited_unchanged (fit : doc.Fits) (settled : doc.Packed ∨ hasComment doc.block = true) :
    ∃ tail, doc.edited = kept (fun _ => false) doc.pieces ++ tail := by
  have nothing : collectLiftImportEdits doc.directives doc.source = [] := by
    unfold collectLiftImportEdits
    split
    · rfl
    next first _ directives =>
      simp only
      split
      · rfl
      next last some_ =>
        split
        · rfl
        next unpacked =>
          obtain packed | commented := settled
          · refine absurd ?_ unpacked
            rw [Document.directives, nodesFrom_takeWhile_length, nodesFrom_filter_length]
            exact packed
          · rw [Document.block, some_, directives] at commented
            exact if_pos commented
  obtain ⟨tail, eq⟩ := edited_eq nothing (by simp)
  have apply := @apply_pieces (fun _ => false) 0 doc.pieces [] tail rfl fit (by simp)
  rw [deletionsFrom_none] at apply
  exact ⟨tail, eq.trans apply⟩

section
variable {p : Piece} {ps : List Piece}

theorem lift_before (pieces : doc.pieces = p :: ps) :
    ∀ e ∈ (⟨p.gap.length, p.gap.length, lifted doc.imports⟩ : SourceEdit) ::
        deletionsFrom Piece.isImport 0 (p :: ps), e.start < (spelled doc.pieces).length := by
  intro e mem
  have size := length_pos_iff.mpr p.token
  rw [pieces]
  obtain rfl | mem := mem_cons.mp mem
  · rw [spelled_length_cons]
    show p.gap.length < _
    omega
  · have bounds := (pieces_bounds (mem_append_left (reorderFrom 0 (p :: ps)) mem)).2
    omega

theorem textReorder_of_isImport {q : Piece} (import_ : q.isImport = true) : q.textReorder = [] :=
  q.plain (by simpa [Piece.isImport] using import_)

/-- The edits behind the first piece are done before the insertion. -/
theorem edited_lifting (fit : doc.Fits) (pieces : doc.pieces = p :: ps) (unpacked : ¬ doc.Packed)
    (quiet : hasComment doc.block = false) {text : Text}
    (lifts : ∀ tail, (((⟨p.gap.length, p.gap.length, lifted doc.imports⟩ : SourceEdit) ::
        p.deletionAt Piece.isImport 0 ++
          p.textReorder.map (SourceEdit.shift p.gap.length)).insertionSort byStart).foldl
        SourceEdit.apply (p.gap ++ p.text ++ tail) = p.gap ++ text ++ tail) :
    ∃ tail, doc.edited = p.newGap ++ text ++ kept Piece.isImport ps ++ tail := by
  obtain ⟨tail, eq⟩ := edited_eq (collect_eq pieces unpacked quiet) (lift_before pieces)
  refine ⟨tail, ?_⟩
  have fit' : ∀ q ∈ p :: ps, q.Fits := fun q mem => fit q (pieces ▸ mem)
  have sorted := @sort_piece Piece.isImport 0 p ps
    [⟨p.gap.length, p.gap.length, lifted doc.imports⟩] (by simp)
  have inner := @apply_pieces Piece.isImport _ ps (p.gap ++ p.text) tail length_append.symm
    (fun q mem => fit' q (mem_cons_of_mem _ mem)) fun q _ => textReorder_of_isImport
  have before := @apply_before [] (text ++ (kept Piece.isImport ps ++ tail)) 0 p rfl (fit' p (by simp))
  have first := lifts (kept Piece.isImport ps ++ tail)
  simp only [cons_append, nil_append, Nat.zero_add, append_assoc] at sorted inner before first
  rw [eq, pieces, cons_append, sorted, foldl_append, foldl_append]
  simp only [spelled, append_assoc]
  rw [inner, first, before]

/-- The first directive is no import: all edits are apart, and each does what it is for. -/
theorem edited_lifted (fit : doc.Fits) (pieces : doc.pieces = p :: ps) (unpacked : ¬ doc.Packed)
    (quiet : hasComment doc.block = false) (other : p.isImport = false) :
    ∃ tail, doc.edited =
      p.newGap ++ (lifted doc.imports ++ p.newText) ++ kept Piece.isImport ps ++ tail := by
  refine edited_lifting fit pieces unpacked quiet fun tail => ?_
  have apart := @sort_apart [⟨p.gap.length, p.gap.length, lifted doc.imports⟩] [] []
    (p.textReorder.map (SourceEdit.shift p.gap.length)) (p.gap.length + 1) (by simp) ?_
  · rw [append_nil, nil_append] at apart
    have text := @apply_text p.gap tail _ p rfl (fit p (by simp [pieces]))
    have insert := @apply_at p.gap [] (p.newText ++ tail) (lifted doc.imports) _ _ rfl rfl
    simp only [append_assoc, nil_append, length_nil, Nat.add_zero] at insert
    simp only [Piece.deletionAt, other, Bool.false_eq_true, if_false]
    rw [apart, foldl_append, text, insertionSort_cons, insertionSort_nil, orderedInsert_nil,
      foldl_cons, foldl_nil, append_assoc p.gap, insert]
    simp only [append_assoc]
  · intro e mem
    obtain ⟨e', mem', rfl⟩ := mem_map.mp mem
    exact Nat.add_le_add_left (p.textInside e' mem').1 _

theorem lifted_cons (q : Piece) {qs : List Piece} (more : qs ≠ []) :
    lifted (q :: qs) = q.text ++ '\n' :: lifted qs := by
  obtain ⟨r, rs, rfl⟩ := exists_cons_of_ne_nil more
  simp [lifted, List.intercalate]

theorem imports_tail_ne_nil (pieces : doc.pieces = p :: ps) (unpacked : ¬ doc.Packed)
    (import_ : p.isImport = true) : ps.filter Piece.isImport ≠ [] := by
  intro none_
  apply unpacked
  have short := takeWhile_length_le_filter Piece.isImport ps
  rw [none_, length_nil] at short
  rw [Document.Packed, Document.imports, pieces, filter_cons_of_pos import_, none_,
    takeWhile_cons_of_pos import_, length_cons, length_singleton]
  omega

/-- The first directive is an import: its deletion begins where the block was inserted, is
applied after the insertion and deletes the block's first import. -/
theorem edited_rotated (fit : doc.Fits) (pieces : doc.pieces = p :: ps) (unpacked : ¬ doc.Packed)
    (quiet : hasComment doc.block = false) (import_ : p.isImport = true) :
    ∃ tail, doc.edited = p.newGap ++ ('\n' :: lifted (ps.filter Piece.isImport) ++ p.newText) ++
      kept Piece.isImport ps ++ tail := by
  refine edited_lifting fit pieces unpacked quiet fun tail => ?_
  have tie : [(⟨p.gap.length, p.gap.length, lifted doc.imports⟩ : SourceEdit),
      ⟨p.gap.length, p.gap.length + p.text.length, []⟩].insertionSort byStart = _ :=
    List.Pairwise.insertionSort_eq (by simp [byStart])
  have insert := @apply_at p.gap [] (p.text ++ tail) (lifted doc.imports) _ _ rfl rfl
  have again : doc.imports = p :: ps.filter Piece.isImport := by
    rw [Document.imports, pieces, filter_cons_of_pos import_]
  have delete := @apply_at p.gap p.text
    ('\n' :: lifted (ps.filter Piece.isImport) ++ (p.text ++ tail)) [] _ _ rfl rfl
  simp only [append_assoc, append_nil, length_nil, Nat.add_zero] at insert
  simp only [Piece.deletionAt, import_, if_true, textReorder_of_isImport import_, map_nil, append_nil,
    Nat.zero_add, newText_of_isImport import_]
  rw [tie, foldl_cons, foldl_cons, foldl_nil, append_assoc p.gap, insert, again,
    lifted_cons p (imports_tail_ne_nil pieces unpacked import_)]
  simpa only [append_assoc, nil_append] using delete

end

end

/-! ### Comments in the block -/

theorem hasComment_infix {t u : Text} (inside : t <:+: u) (quiet : hasComment u = false) :
    hasComment t = false := by
  simp only [hasComment, decide_eq_false_iff_not, not_or] at quiet ⊢
  exact ⟨fun found => quiet.1 (found.trans inside), fun found => quiet.2 (found.trans inside)⟩

theorem spelled_append (ps qs : List Piece) : spelled (ps ++ qs) = spelled ps ++ spelled qs := by
  induction ps with
  | nil => rfl
  | cons p ps ih => simp only [cons_append, spelled, ih, append_assoc]

theorem last_import {n : Nat} {ps : List Piece} {last : Directive}
    (found : ((nodesFrom n ps).filter Directive.isImport).getLast? = some last) :
    ∃ front tail, ps = front ++ tail ∧ front ≠ [] ∧ (∀ q ∈ tail, q.isImport = false) ∧
      last.stop = n + (spelled front).length := by
  induction ps generalizing n with
  | nil => simp [nodesFrom] at found
  | cons p ps ih =>
    let next := n + (p.gap.length + p.text.length)
    cases later : ((nodesFrom next ps).filter Directive.isImport).getLast? with
    | some last' =>
      have same : last' = last := by
        rw [nodesFrom, filter_cons] at found
        split at found
        · rw [List.getLast?_cons, later] at found
          exact Option.some.inj found
        · exact Option.some.inj (later.symm.trans found)
      obtain ⟨front, tail, rfl, -, none_, stop⟩ := ih (same ▸ later)
      refine ⟨p :: front, tail, rfl, by simp, none_, ?_⟩
      rw [stop, spelled_length_cons]
      omega
    | none =>
      have empty := List.getLast?_eq_none_iff.mp later
      have none_ : ∀ q ∈ ps, q.isImport = false := by
        have length := nodesFrom_filter_length next ps
        rw [empty, length_nil, eq_comm, length_eq_zero_iff, filter_eq_nil_iff] at length
        simpa using length
      rw [nodesFrom, filter_cons, empty] at found
      split at found
      · refine ⟨[p], ps, rfl, by simp, none_, ?_⟩
        cases found
        show n + p.gap.length + p.text.length = _
        simp only [spelled, append_nil, length_append]
        omega
      · simp at found

theorem imports_quiet {doc : Document} {p : Piece} {ps : List Piece}
    (pieces : doc.pieces = p :: ps) (quiet : hasComment doc.block = false) :
    ∀ q ∈ ps, q.isImport = true → hasComment q.trivia = false := by
  intro q mem import_
  cases found : (doc.directives.filter Directive.isImport).getLast? with
  | none =>
    have length := nodesFrom_filter_length 0 doc.pieces
    rw [← Document.directives, List.getLast?_eq_none_iff.mp found, length_nil, eq_comm,
      length_eq_zero_iff, filter_eq_nil_iff] at length
    exact absurd import_ (length q (by simp [pieces, mem]))
  | some last =>
    obtain ⟨front, tail, whole, some_, none_, stop⟩ := last_import found
    obtain ⟨p', zs, rfl⟩ := exists_cons_of_ne_nil some_
    obtain ⟨rfl, rfl⟩ := List.cons.inj (pieces.symm.trans whole)
    have block : doc.block = p.text ++ spelled zs := by
      rw [Document.block, found, Document.directives, pieces, nodesFrom]
      show slice doc.source (0 + p.gap.length) last.stop = _
      rw [Document.source, whole, spelled_append, slice, stop, Nat.zero_add, Nat.zero_add,
        append_assoc, take_left, spelled, append_assoc, drop_left]
    obtain mem | mem := mem_append.mp mem
    · obtain ⟨xs, ys, rfl⟩ := append_of_mem mem
      refine hasComment_infix ⟨p.text ++ spelled xs ++ q.before, q.text ++ spelled ys, ?_⟩ quiet
      rw [block, spelled_append, spelled, Piece.gap]
      simp only [append_assoc]
    · exact absurd import_ (by simp [none_ q mem])

/-! ### The order of the directives -/

/-- Text made of newlines and of what is allowed between directives. -/
inductive Filler (allowed : Text → Prop) : Text → Prop
  | nil : Filler allowed []
  | newline : Filler allowed ['\n']
  | gap {t} (between : allowed t) : Filler allowed t
  | append {t u} (first : Filler allowed t) (second : Filler allowed u) : Filler allowed (t ++ u)

/-- The texts are laid out one after another, each once, with filler around them. -/
inductive Laid (allowed : Text → Prop) : List Text → Text → Prop
  | nil {g} (filler : Filler allowed g) : Laid allowed [] g
  | cons {g d ds rest} (filler : Filler allowed g) (more : Laid allowed ds rest) :
    Laid allowed (d :: ds) (g ++ d ++ rest)

section
variable {allowed : Text → Prop}

theorem Laid.filler_append {g t : Text} {ds : List Text} (filler : Filler allowed g)
    (laid : Laid allowed ds t) : Laid allowed ds (g ++ t) := by
  cases laid with
  | nil after => exact .nil (filler.append after)
  | cons after more =>
    rw [append_assoc, ← append_assoc, ← append_assoc]
    exact .cons (filler.append after) more

theorem Laid.append {ds es : List Text} {t u : Text} (first : Laid allowed ds t)
    (second : Laid allowed es u) : Laid allowed (ds ++ es) (t ++ u) := by
  induction first with
  | nil filler => exact second.filler_append filler
  | cons filler more ih =>
    rw [append_assoc]
    exact .cons filler ih

theorem Laid.text (d : Text) {ds : List Text} {t : Text} (more : Laid allowed ds t) :
    Laid allowed (d :: ds) (d ++ t) := .cons .nil more

variable {label : Piece → Text} {ps : List Piece}

theorem laid_kept {cut : Piece → Bool} (gaps : ∀ p ∈ ps, cut p = true → Filler allowed p.newGap)
    (leads : ∀ p ∈ ps, ∃ g, Filler allowed g ∧ p.newGap ++ p.newText = g ++ label p) :
    Laid allowed ((ps.filter fun p => !cut p).map label) (kept cut ps) := by
  induction ps with
  | nil => exact .nil .nil
  | cons p ps ih =>
    have more := ih (fun q mem => gaps q (mem_cons_of_mem _ mem))
      (fun q mem => leads q (mem_cons_of_mem _ mem))
    cases here : cut p with
    | true =>
      rw [kept, here, filter_cons_of_neg (by simp [here]), if_pos rfl, append_nil]
      exact more.filler_append (gaps p (by simp) here)
    | false =>
      obtain ⟨g, filler, eq⟩ := leads p (by simp)
      rw [kept, here, filter_cons_of_pos (by simp [here]), if_neg (by simp), eq]
      exact .cons filler more

/-- Where nothing is cut all directives stay. -/
theorem laid_all (leads : ∀ p ∈ ps, ∃ g, Filler allowed g ∧ p.newGap ++ p.newText = g ++ label p) :
    Laid allowed (ps.map label) (kept (fun _ => false) ps) := by
  simpa using @laid_kept _ _ _ (fun _ => false) (by simp) leads

theorem laid_lifted (texts : ∀ p ∈ ps, label p = p.text) :
    Laid allowed (ps.map label) (lifted ps) := by
  induction ps with
  | nil => exact .nil .newline
  | cons p ps ih =>
    rw [map_cons, texts p (by simp)]
    have more := ih fun q mem => texts q (mem_cons_of_mem _ mem)
    cases ps with
    | nil => simpa [lifted, List.intercalate] using Laid.text p.text (.nil .newline)
    | cons q qs =>
      rw [lifted_cons p (by simp)]
      exact Laid.text p.text (more.filler_append .newline)

end

/-- A directive with the comments attached to it. -/
def Piece.withComments (p : Piece) : Text :=
  if hasComment p.trivia then p.trivia ++ p.newText else p.newText

/-- What is between the directives of a document, comments attached to a directive apart. -/
def Document.Between (doc : Document) (t : Text) : Prop :=
  ∃ p ∈ doc.pieces, t = applyEdits p.before p.beforeReorder ∨ t = p.trivia ∧ hasComment p.trivia = false

/-- What is between the directives of a document. -/
def Document.Gap (doc : Document) (t : Text) : Prop := ∃ p ∈ doc.pieces, t = p.newGap

/-- The first directive is no import and has no comment attached to it. -/
def Document.StartsQuietly (doc : Document) : Prop :=
  ∀ p, doc.pieces.head? = some p → p.isImport = false ∧ hasComment p.trivia = false

/-- The order the directives come out in. -/
def Document.order (doc : Document) : List Piece :=
  if doc.Packed ∨ hasComment doc.block then doc.pieces
  else
    match doc.pieces with
    | [] => []
    | p :: ps =>
      if p.isImport then ps.filter Piece.isImport ++ p :: doc.others
      else doc.imports ++ doc.others

theorem filter_append_of_packed {α : Type} {test : α → Bool} {xs : List α}
    (packed : (xs.takeWhile test).length = (xs.filter test).length) :
    xs.filter test ++ xs.filter (fun x => !test x) = xs := by
  induction xs with
  | nil => rfl
  | cons x xs ih =>
    cases first : test x with
    | true =>
      rw [takeWhile_cons_of_pos first, filter_cons_of_pos first, length_cons, length_cons] at packed
      rw [filter_cons_of_pos first, filter_cons_of_neg (by simp [first]),
        cons_append, ih (by omega)]
    | false =>
      -- nothing may be among the first, so nothing passes at all
      rw [takeWhile_cons_of_neg (by simp [first]), length_nil, eq_comm,
        length_eq_zero_iff] at packed
      rw [packed, nil_append, filter_eq_self]
      simpa using filter_eq_nil_iff.mp packed

section
variable {doc : Document} {p : Piece}

theorem gap_filler (mem : p ∈ doc.pieces) : Filler doc.Gap p.newGap := .gap ⟨p, mem, rfl⟩

theorem gap_leads (mem : p ∈ doc.pieces) :
    ∃ g, Filler doc.Gap g ∧ p.newGap ++ p.newText = g ++ p.newText := ⟨p.newGap, gap_filler mem, rfl⟩

theorem between_filler (mem : p ∈ doc.pieces) (quiet : hasComment p.trivia = false) :
    Filler doc.Between p.newGap :=
  .append (.gap ⟨p, mem, .inl rfl⟩) (.gap ⟨p, mem, .inr ⟨rfl, quiet⟩⟩)

theorem between_leads (mem : p ∈ doc.pieces) :
    ∃ g, Filler doc.Between g ∧ p.newGap ++ p.newText = g ++ p.withComments := by
  cases commented : hasComment p.trivia with
  | true =>
    exact ⟨_, .gap ⟨p, mem, .inl rfl⟩, by simp [Piece.withComments, commented, Piece.newGap]⟩
  | false =>
    exact ⟨p.newGap, between_filler mem commented, by simp [Piece.withComments, commented]⟩

theorem withComments_quiet (quiet : hasComment p.trivia = false) : p.withComments = p.newText := by
  simp [Piece.withComments, quiet]

end

/-- A directive without edits of the second pass, after the given trivia. -/
def directive (trivia text : Text) (name : String) (token : text ≠ []) (trimmed : trim text = text) :
    Piece where
  before := []
  beforeReorder := []
  trivia := trivia
  text := text
  textReorder := []
  name := some name
  token := token
  trimmed := trimmed
  beforeInside := by simp
  textInside := by simp
  plain := fun _ => rfl

def importA : Piece :=
  directive [] "#import a from \"a\"".toList "import" (by decide) (by decide +kernel)

def importB : Piece :=
  directive ['\n'] "#import b from \"b\"".toList "import" (by decide) (by decide +kernel)

def schemaS : Piece :=
  directive ['\n'] "#schema S \x7b Int x: 1 \x7d".toList "schema" (by decide) (by decide +kernel)

/-- An import behind a decorator whose argument has a method behind a field. -/
def decoratedImport : Piece :=
  { importB with
    before := "\n@d(\x7b x: 1, m(a): a \x7d)".toList
    beforeReorder := [⟨5, 20, "\nm(a): a,\nx: 1\n".toList⟩]
    beforeInside := by decide }

/-- A schema, a decorator with a dict to reorder, and an import. -/
def decorated : Document := ⟨[schemaS, decoratedImport], "\n\x7b\x7d".toList, []⟩

theorem filler_no_hash {allowed : Text → Prop} (none_ : ∀ t, allowed t → '#' ∉ t) {g : Text}
    (filler : Filler allowed g) : '#' ∉ g := by
  induction filler with
  | nil => simp
  | newline => decide
  | gap between => exact none_ _ between
  | append _ _ first second => simp [first, second]

theorem Laid.first {allowed : Text → Prop} (none_ : ∀ t, allowed t → '#' ∉ t) {d : Text}
    {ds : List Text} {front tail : Text} (laid : Laid allowed (('#' :: d) :: ds) front) :
    '#' :: d <+: (front ++ tail).dropWhile (· != '#') := by
  cases laid with
  | @cons g _ _ rest filler more =>
    have before : ∀ c ∈ g, (c != '#') = true := fun c mem => by
      have absent := filler_no_hash none_ filler
      simp only [bne_iff_ne, ne_eq]
      rintro rfl
      exact absent mem
    rw [append_assoc, append_assoc, dropWhile_append_of_pos before,
      cons_append, dropWhile_cons_of_neg (by simp)]
    exact ⟨rest ++ tail, rfl⟩

/-- Two imports around a schema. -/
def interleaved : Document := ⟨[importA, schemaS, importB], "\n\x7b\x7d\n".toList, []⟩

end Relon.Fmt
