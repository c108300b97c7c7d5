import Mathlib.Data.List.Basic

/-! Glob matching.

`glob_match` walks the string and the pattern with two cursors and remembers one place to
come back to: the last `*` it passed, with the point of the string up to which that `*` has
been stretched. The model keeps each cursor as what is left after it. The language of a
pattern is stated on its own (`Denotes`), token by token, and the loop is shown to decide
it: forgetting all earlier stars loses no match, because a match that stretches an earlier
star further can be traded for one that stretches the last star. -/
namespace Relon.Unicode.Glob
open List

/-! ### The language of a pattern -/

/-- A class body: its members up to the closing bracket, and the pattern after it. -/
inductive Listed : List Char → List Char → List Char → Prop
  | close {rest} : Listed (']' :: rest) [] rest
  | escaped {c body members rest} (more : Listed body members rest) :
    Listed ('\\' :: c :: body) (c :: members) rest
  | plain {c body members rest} (open_ : c ≠ ']') (bare : c ≠ '\\')
    (more : Listed body members rest) : Listed (c :: body) (c :: members) rest

/-- The pattern begins with a token for one code point, `c` is such a code point, and `rest`
is the pattern after the token. A class without its closing bracket is no token. -/
inductive Accepts : List Char → Char → List Char → Prop
  | any {c rest} : Accepts ('?' :: rest) c rest
  | among {c body members rest} (straight : body.head? ≠ some '^')
    (listed : Listed body members rest) (member : c ∈ members) : Accepts ('[' :: body) c rest
  | outside {c body members rest} (listed : Listed body members rest) (foreign : c ∉ members) :
    Accepts ('[' :: '^' :: body) c rest
  | escaped {c rest} : Accepts ('\\' :: c :: rest) c rest
  | backslash : Accepts ['\\'] '\\' []
  | plain {c rest} (special : c ∉ ['*', '?', '[', '\\']) : Accepts (c :: rest) c rest

/-- The string is in the language of the pattern. -/
inductive Denotes : List Char → List Char → Prop
  | done : Denotes [] []
  | star {p s} (stretch : List Char) (more : Denotes p s) : Denotes ('*' :: p) (stretch ++ s)
  | unit {c p rest s} (token : Accepts p c rest) (more : Denotes rest s) : Denotes p (c :: s)

/-! ### The matcher -/

/-- The `while` loop of `try_match_class`, from the first member on. -/
def classLoop (ch : Char) (negate matched : Bool) : List Char → Option (Bool × List Char)
  | [] => none
  | ']' :: rest => some (if negate then !matched else matched, rest)
  | '\\' :: lit :: rest => classLoop ch negate (matched || lit == ch) rest
  | lit :: rest => classLoop ch negate (matched || lit == ch) rest

/-- `try_match_class`, on what follows the `[`. -/
def tryMatchClass (p : List Char) (ch : Char) : Option (Bool × List Char) :=
  match p with
  | '^' :: body => classLoop ch true false body
  | body => classLoop ch false false body

/-- What the pattern's next token makes of a code point. -/
inductive Outcome
  | star (rest : List Char)
  | accept (rest : List Char)
  | mismatch
  | malformed

/-- The `match` on `p[p_idx]` inside the loop. -/
def consume (ch : Char) : List Char → Outcome
  | [] => .mismatch
  | '*' :: p => .star p
  | '?' :: p => .accept p
  | '[' :: p =>
    match tryMatchClass p ch with
    | some (true, next) => .accept next
    | some (false, _) => .mismatch
    | none => .malformed
  | ['\\'] => if ch = '\\' then .accept [] else .mismatch
  | '\\' :: lit :: p => if ch = lit then .accept p else .mismatch
  | lit :: p => if ch = lit then .accept p else .mismatch

/-- The loop's variables. The anchor is kept as the pattern after its `*` and the string at
`star_s`. -/
structure Cursor where
  s : List Char
  p : List Char
  backtrack : Option (List Char × List Char)

/-- One turn of the loop, or the answer. -/
def Cursor.next (c : Cursor) : Cursor ⊕ Bool :=
  match c.s with
  | [] => .inr ((c.p.dropWhile (· == '*')).isEmpty)
  | ch :: s =>
    match consume ch c.p with
    | .star p => .inl ⟨ch :: s, p, some (p, ch :: s)⟩
    | .accept p => .inl ⟨s, p, c.backtrack⟩
    | .malformed => .inr false
    | .mismatch =>
      match c.backtrack with
      | some (starP, starS) => .inl ⟨starS.tail, starP, some (starP, starS.tail)⟩
      | none => .inr false

/-! ### What a token does -/

variable {p s body rest members : List Char} {ch : Char} {c c' : Cursor}

theorem Listed.classLoop (listed : Listed p members rest) (ch : Char) (negate matched : Bool) :
    classLoop ch negate matched p = some (negate ^^ (matched || members.any (· == ch)), rest) := by
  induction listed generalizing matched with
  | close => cases negate <;> simp [Glob.classLoop]
  | escaped more ih => simp [Glob.classLoop, ih, Bool.or_assoc]
  | @plain c body members rest open_ bare more ih =>
    rw [Glob.classLoop.eq_4 _ _ _ _ _ open_ (fun _ _ eq => absurd eq bare), ih]
    simp [Bool.or_assoc]

theorem listed_of_classLoop {negate matched result : Bool}
    (walked : classLoop ch negate matched p = some (result, rest)) :
    ∃ members, Listed p members rest := by
  fun_induction Glob.classLoop ch negate matched p with
  | case1 => cases walked
  | case2 =>
    obtain ⟨-, rfl⟩ := Prod.mk.inj (Option.some.inj walked)
    exact ⟨[], .close⟩
  | case3 _ lit _ ih =>
    obtain ⟨members, listed⟩ := ih walked
    exact ⟨lit :: members, .escaped listed⟩
  | case4 matched lit tail open_ single ih =>
    obtain ⟨members, listed⟩ := ih walked
    by_cases bare : lit = '\\'
    · -- a lone backslash ends the pattern, and with it the class
      cases tail with
      | nil => cases listed
      | cons c more => exact absurd rfl (single c more bare)
    · exact ⟨lit :: members, .plain open_ bare listed⟩

theorem tryMatchClass_straight (straight : body.head? ≠ some '^') (ch : Char) :
    tryMatchClass body ch = classLoop ch false false body := by
  unfold tryMatchClass
  split
  · simp at straight
  · rfl

/-- A class is read to the same end whatever code point it is tried on. -/
theorem tryMatchClass_accepts :
    tryMatchClass p ch = some (true, rest) ↔ Accepts ('[' :: p) ch rest := by
  constructor
  · intro parsed
    unfold tryMatchClass at parsed
    split at parsed
    next body =>
      obtain ⟨members, listed⟩ := listed_of_classLoop parsed
      rw [listed.classLoop] at parsed
      have free : ∀ c ∈ members, ¬ c = ch := by simpa using parsed
      exact .outside listed (fun member => free ch member rfl)
    next straight =>
      obtain ⟨members, listed⟩ := listed_of_classLoop parsed
      rw [listed.classLoop] at parsed
      refine .among ?_ listed (by simpa using parsed)
      intro negated
      obtain ⟨body, rfl⟩ := List.head?_eq_some_iff.mp negated
      exact straight body rfl
  · intro token
    cases token with
    | among straight listed member =>
      rw [tryMatchClass_straight straight, listed.classLoop]
      simpa using member
    | outside listed foreign =>
      rw [tryMatchClass, listed.classLoop]
      have free : ∀ c ∈ _, ¬ c = ch := fun c member same => foreign (same ▸ member)
      simpa using free
    | plain special => simp at special

theorem tryMatchClass_none (malformed : tryMatchClass p ch = none) (c : Char) (rest : List Char) :
    ¬ Accepts ('[' :: p) c rest := by
  intro token
  cases token with
  | among straight listed member =>
    rw [tryMatchClass_straight straight, listed.classLoop] at malformed
    cases malformed
  | outside listed foreign =>
    rw [tryMatchClass, listed.classLoop] at malformed
    cases malformed
  | plain special => simp at special

theorem consume_star : consume ch p = .star rest ↔ p = '*' :: rest := by
  constructor
  · intro used
    unfold consume at used
    split at used
    · cases used
    · cases used
      rfl
    · cases used
    all_goals
      split at used <;> cases used
  · rintro rfl
    rfl

theorem consume_accept : consume ch p = .accept rest ↔ Accepts p ch rest := by
  constructor
  · intro used
    unfold consume at used
    split at used
    · cases used
    · cases used
    · cases used
      exact .any
    · split at used
      next parsed =>
        cases used
        exact tryMatchClass_accepts.mp parsed
      · cases used
      · cases used
    · split at used
      next same =>
        cases used
        exact same ▸ .backslash
      · cases used
    · split at used
      next same =>
        cases used
        exact same ▸ .escaped
      · cases used
    next lit p' star any bracket lone escaped =>
      split at used
      next same =>
        cases used
        subst same
        refine .plain ?_
        simp only [mem_cons, not_mem_nil, or_false, not_or]
        refine ⟨star, any, bracket, ?_⟩
        intro slash
        cases rest with
        | nil => exact lone slash rfl
        | cons c more => exact escaped c more slash rfl
      · cases used
  · intro token
    cases token with
    | any => rfl
    | among straight listed member =>
      rw [consume, tryMatchClass_accepts.mpr (.among straight listed member)]
    | outside listed foreign =>
      rw [consume, tryMatchClass_accepts.mpr (.outside listed foreign)]
    | escaped => simp [consume]
    | backslash => rfl
    | plain special =>
      simp only [mem_cons, not_mem_nil, or_false, not_or] at special
      obtain ⟨star, any, bracket, slash⟩ := special
      simp [consume, slash]

theorem Listed.length (listed : Listed body members rest) : rest.length < body.length := by
  induction listed with
  | close => simp
  | escaped more ih =>
    simp only [length_cons]
    omega
  | plain open_ bare more ih =>
    simp only [length_cons]
    omega

theorem Listed.rest_eq {body members rest members' other : List Char}
    (listed : Listed body members rest) (again : Listed body members' other) : other = rest := by
  have same := (again.classLoop 'a' false false).symm.trans (listed.classLoop 'a' false false)
  exact congrArg Prod.snd (Option.some.inj same)

/-- A token takes at least one code point of the pattern. -/
theorem Accepts.length {c : Char} (token : Accepts p c rest) : rest.length < p.length := by
  cases token with
  | among straight listed member =>
    have := listed.length
    simp only [length_cons]
    omega
  | outside listed foreign =>
    have := listed.length
    simp only [length_cons]
    omega
  | _ =>
    simp only [length_cons]
    omega

/-- The rest of the pattern does not depend on the code point. -/
theorem Accepts.rest_eq {p rest other : List Char} {c d : Char} (token : Accepts p c rest)
    (again : Accepts p d other) : other = rest := by
  cases token with
  | among straight listed member =>
    cases again with
    | among _ listed' _ => exact listed.rest_eq listed'
    | outside => simp at straight
    | plain special => simp at special
  | outside listed foreign =>
    cases again with
    | among straight => simp at straight
    | outside listed' _ => exact listed.rest_eq listed'
    | plain special => simp at special
  | any =>
    cases again with
    | any => rfl
    | plain special => rfl
  | escaped =>
    cases again with
    | escaped => rfl
    | plain special => simp at special
  | backslash =>
    cases again with
    | backslash => rfl
    | plain special => rfl
  | plain special =>
    cases again with
    | plain _ => rfl
    | any => rfl
    | _ => simp at special

theorem not_accepts_star {c : Char} : ¬ Accepts ('*' :: p) c rest := by
  intro token
  cases token with
  | plain special => simp at special

/-! ### Termination -/

/-- The cursors are never behind the anchor. -/
def Cursor.Ordered (c : Cursor) : Prop :=
  ∀ anchor ∈ c.backtrack, c.p.length ≤ anchor.1.length ∧ c.s.length ≤ anchor.2.length

/-- What shrinks: the pattern after the last star, then the string left to that star, then
what is left to read. -/
def Cursor.rank (c : Cursor) : Nat × Nat × Nat :=
  match c.backtrack with
  | none => (c.p.length + 1, 0, c.s.length)
  | some (starP, starS) => (starP.length, starS.length, c.s.length)

/-- Everything a turn of the loop can do. -/
theorem Cursor.next_inl (turn : c.next = .inl c') : ∃ ch s, c.s = ch :: s ∧
      ((∃ p, c.p = '*' :: p ∧ c' = ⟨c.s, p, some (p, c.s)⟩) ∨
        (∃ p, Accepts c.p ch p ∧ c' = ⟨s, p, c.backtrack⟩) ∨
        (∃ starP starS, consume ch c.p = .mismatch ∧ c.backtrack = some (starP, starS) ∧
          c' = ⟨starS.tail, starP, some (starP, starS.tail)⟩)) := by
  unfold Cursor.next at turn
  split at turn
  · cases turn
  next ch s string =>
    refine ⟨ch, s, string, ?_⟩
    split at turn
    next p token =>
      cases turn
      exact .inl ⟨p, consume_star.mp token, by rw [string]⟩
    next p token =>
      cases turn
      exact .inr (.inl ⟨p, consume_accept.mp token, rfl⟩)
    · cases turn
    next token =>
      split at turn
      next starP starS anchor =>
        cases turn
        exact .inr (.inr ⟨starP, starS, token, anchor, rfl⟩)
      · cases turn

theorem Cursor.next_ordered (ordered : c.Ordered) (turn : c.next = .inl c') : c'.Ordered := by
  obtain ⟨ch, s, string, ⟨p, pattern, rfl⟩ | ⟨p, token, rfl⟩ | ⟨starP, starS, -, anchor, rfl⟩⟩ :=
    Cursor.next_inl turn
  · intro anchor mem
    cases mem
    exact ⟨Nat.le_refl _, Nat.le_refl _⟩
  · intro anchor mem
    have before := ordered anchor mem
    have := token.length
    simp only [string, length_cons] at before
    show p.length ≤ _ ∧ s.length ≤ _
    omega
  · intro anchor mem
    cases mem
    exact ⟨Nat.le_refl _, Nat.le_refl _⟩

theorem Cursor.next_rank (ordered : c.Ordered) (turn : c.next = .inl c') :
    Prod.Lex (· < ·) (Prod.Lex (· < ·) (· < ·)) c'.rank c.rank := by
  obtain ⟨ch, s, string, ⟨p, pattern, rfl⟩ | ⟨p, token, rfl⟩ | ⟨starP, starS, -, anchor, rfl⟩⟩ :=
    Cursor.next_inl turn
  · cases anchor : c.backtrack with
    | none =>
      simp only [Cursor.rank, anchor, pattern, length_cons]
      exact .left _ _ (by omega)
    | some star =>
      have before := (ordered star anchor).1
      simp only [Cursor.rank, anchor]
      simp only [pattern, length_cons] at before
      exact .left _ _ (by omega)
  · cases anchor : c.backtrack with
    | none =>
      have := token.length
      simp only [Cursor.rank, anchor]
      exact .left _ _ (by omega)
    | some star =>
      simp only [Cursor.rank, anchor, string, length_cons]
      exact .right _ (.right _ (by omega))
  · have before := (ordered _ anchor).2
    simp only [string, length_cons] at before
    simp only [Cursor.rank, anchor, length_tail]
    exact .right _ (.left _ _ (by omega))

theorem Cursor.ordered_start (s p : List Char) : Cursor.Ordered ⟨s, p, none⟩ := by
  simp [Cursor.Ordered]

/-- The loop of `glob_match`. -/
def scan (c : Cursor) (ordered : c.Ordered) : Bool :=
  match turn : c.next with
  | .inr answer => answer
  | .inl c' => scan c' (Cursor.next_ordered ordered turn)
termination_by c.rank
decreasing_by exact Cursor.next_rank ordered turn

/-- `glob_match`. -/
def globMatch (s pattern : String) : Bool :=
  scan ⟨s.toList, pattern.toList, none⟩ (Cursor.ordered_start _ _)

/-! ### Correctness -/

theorem denotes_star :
    Denotes ('*' :: p) s ↔ ∃ stretch rest, s = stretch ++ rest ∧ Denotes p rest := by
  constructor
  · intro denoted
    cases denoted with
    | star stretch more => exact ⟨stretch, _, rfl, more⟩
    | unit token more => exact absurd token not_accepts_star
  · rintro ⟨stretch, rest, rfl, more⟩
    exact .star stretch more

theorem Accepts.denotes {c : Char} (token : Accepts p c rest) (denoted : Denotes p s) :
    ∃ d s', s = d :: s' ∧ Denotes rest s' := by
  cases denoted with
  | done => cases token
  | star stretch more => exact absurd token not_accepts_star
  | unit again more => exact ⟨_, _, rfl, token.rest_eq again ▸ more⟩

/-- What the rest of the loop is to find out: whether the cursors stand at a match, or a
match can be had by stretching the last star further. -/
def Cursor.Matches (c : Cursor) : Prop :=
  Denotes c.p c.s ∨ ∃ anchor ∈ c.backtrack, ∃ skipped rest,
    skipped ≠ [] ∧ anchor.2 = skipped ++ rest ∧ Denotes anchor.1 rest

/-- Since the last star the cursors have passed as many code points as tokens: `read` leads
from the anchor to the string cursor, and whatever the pattern after the star denotes begins
with that many code points before what the pattern at the cursor denotes. -/
def Cursor.Aligned (c : Cursor) : Prop :=
  ∀ anchor ∈ c.backtrack, ∃ read, anchor.2 = read ++ c.s ∧
    ∀ s, Denotes anchor.1 s → ∃ front rest, s = front ++ rest ∧ front.length = read.length ∧
      Denotes c.p rest

/-- A match by stretching the anchored star leaves one of the pattern at the cursor, in a
shorter string. -/
theorem Cursor.Aligned.trade (aligned : c.Aligned) {starP starS : List Char}
    (anchor : c.backtrack = some (starP, starS)) {skipped rest : List Char} (some_ : skipped ≠ [])
    (split : starS = skipped ++ rest) (denoted : Denotes starP rest) :
    ∃ passed left, passed ≠ [] ∧ c.s = passed ++ left ∧ Denotes c.p left := by
  obtain ⟨read, string, follows⟩ := aligned _ anchor
  obtain ⟨front, left, rfl, length, more⟩ := follows rest denoted
  -- `skipped ++ front` is longer than `read`, so what is beyond it lies in the string ahead
  have whole : (skipped ++ front) ++ left = read ++ c.s := by
    rw [append_assoc, ← split]
    exact string
  have longer : read.length < (skipped ++ front).length := by
    have := length_pos_iff.mpr some_
    simp only [length_append]
    omega
  rcases append_eq_append_iff.mp whole with ⟨more', eq, -⟩ | ⟨passed, eq, ahead⟩
  · have := congrArg List.length eq
    simp only [length_append] at this longer
    omega
  · refine ⟨passed, left, ?_, ahead, more⟩
    rintro rfl
    simp [eq] at longer

theorem denotes_nil : Denotes p [] ↔ (p.dropWhile (· == '*')).isEmpty = true := by
  induction p with
  | nil => simpa using Denotes.done
  | cons c p ih =>
    by_cases star : c = '*'
    · subst star
      rw [denotes_star, dropWhile_cons_of_pos (by simp), ← ih]
      constructor
      · rintro ⟨stretch, rest, eq, more⟩
        obtain ⟨-, rfl⟩ := append_eq_nil_iff.mp eq.symm
        exact more
      · intro more
        exact ⟨[], [], rfl, more⟩
    · rw [dropWhile_cons_of_neg (by simpa using star)]
      constructor
      · generalize nothing : ([] : List Char) = s
        intro denoted
        cases denoted with
        | star => exact absurd rfl star
        | unit => cases nothing
      · intro empty
        cases empty

theorem consume_mismatch (refused : consume ch p = .mismatch) : ¬ Denotes p (ch :: s) := by
  generalize string : ch :: s = whole
  intro denoted
  cases denoted with
  | done => cases string
  | star => cases refused
  | unit token =>
    cases string
    cases refused.symm.trans (consume_accept.mpr token)

/-- A pattern that has come to a class without an end denotes nothing. -/
theorem consume_malformed (broken : consume ch p = .malformed) (s : List Char) : ¬ Denotes p s := by
  have noToken : ∀ c rest, ¬ Accepts p c rest := by
    unfold consume at broken
    split at broken
    · cases broken
    · cases broken
    · cases broken
    · split at broken
      · cases broken
      · cases broken
      next malformed => exact tryMatchClass_none malformed
    all_goals
      split at broken
      · cases broken
      · cases broken
  intro denoted
  cases denoted with
  | done => cases broken
  | star => cases broken
  | unit token => exact noToken _ _ token

theorem Cursor.next_inr {answer : Bool} (aligned : c.Aligned) (turn : c.next = .inr answer) :
    answer = true ↔ c.Matches := by
  unfold Cursor.next at turn
  split at turn
  next string =>
    -- a star that is stretched further leaves too little of the string
    cases turn
    rw [← denotes_nil, Cursor.Matches, string, or_iff_left]
    rintro ⟨anchor, mem, skipped, rest, some_, split, denoted⟩
    obtain ⟨passed, left, nonempty, eq, -⟩ := aligned.trade mem some_ split denoted
    rw [string] at eq
    exact nonempty (append_eq_nil_iff.mp eq.symm).1
  next ch s string =>
    split at turn
    · cases turn
    · cases turn
    next broken =>
      cases turn
      simp only [Bool.false_eq_true, false_iff]
      rintro (denoted | ⟨anchor, mem, skipped, rest, some_, split, denoted⟩)
      · exact consume_malformed broken _ denoted
      · obtain ⟨passed, left, -, -, more⟩ := aligned.trade mem some_ split denoted
        exact consume_malformed broken _ more
    next refused =>
      split at turn
      · cases turn
      next free =>
        cases turn
        simp only [Bool.false_eq_true, false_iff]
        rintro (denoted | ⟨anchor, mem, -⟩)
        · exact consume_mismatch refused (string ▸ denoted)
        · rw [free] at mem
          cases mem

/-- Passing a star makes it the anchor: the matches of all earlier stars are among its own. -/
theorem Cursor.matches_star (aligned : c.Aligned) (pattern : c.p = '*' :: p) :
    c.Matches ↔ Matches ⟨c.s, p, some (p, c.s)⟩ := by
  have stretched : Matches ⟨c.s, p, some (p, c.s)⟩ ↔ Denotes c.p c.s := by
    rw [pattern, denotes_star]
    constructor
    · rintro (denoted | ⟨anchor, mem, skipped, rest, -, split, denoted⟩)
      · exact ⟨[], c.s, rfl, denoted⟩
      · cases mem
        exact ⟨skipped, rest, split, denoted⟩
    · rintro ⟨stretch, rest, split, denoted⟩
      cases stretch with
      | nil =>
        obtain rfl : c.s = rest := split
        exact .inl denoted
      | cons d ds => exact .inr ⟨_, rfl, d :: ds, rest, by simp, split, denoted⟩
  rw [stretched, Cursor.Matches, or_iff_left_iff_imp]
  rintro ⟨anchor, mem, skipped, rest, some_, split, denoted⟩
  obtain ⟨passed, left, -, eq, more⟩ := aligned.trade mem some_ split denoted
  rw [pattern] at more ⊢
  obtain ⟨stretch, final, rfl, last⟩ := denotes_star.mp more
  exact denotes_star.mpr ⟨passed ++ stretch, final, by rw [eq, append_assoc], last⟩

/-- A turn of the loop keeps the alignment and the answer. -/
theorem Cursor.next_matches (aligned : c.Aligned) (turn : c.next = .inl c') :
    c'.Aligned ∧ (c.Matches ↔ c'.Matches) := by
  obtain ⟨ch, s, string, ⟨p, pattern, rfl⟩ | ⟨p, token, rfl⟩ |
    ⟨starP, starS, refused, anchor, rfl⟩⟩ := Cursor.next_inl turn
  · refine ⟨?_, matches_star aligned pattern⟩
    intro anchor mem
    cases mem
    exact ⟨[], rfl, fun s denoted => ⟨[], s, rfl, rfl, denoted⟩⟩
  · constructor
    · intro anchor mem
      obtain ⟨read, eq, follows⟩ := aligned anchor mem
      refine ⟨read ++ [ch], by simp [eq, string], ?_⟩
      intro whole denoted
      obtain ⟨front, rest, rfl, length, more⟩ := follows whole denoted
      obtain ⟨d, rest', rfl, more'⟩ := token.denotes more
      exact ⟨front ++ [d], rest', by simp, by simp [length], more'⟩
    · have here : Denotes c.p c.s ↔ Denotes p s := by
        rw [string]
        constructor
        · intro denoted
          obtain ⟨d, s', eq, more⟩ := token.denotes denoted
          obtain ⟨-, rfl⟩ := List.cons.inj eq
          exact more
        · exact .unit token
      exact or_congr_left here
  · constructor
    · intro other mem
      cases mem
      exact ⟨[], rfl, fun s denoted => ⟨[], s, rfl, rfl, denoted⟩⟩
    · have lost : ¬ Denotes c.p c.s := string ▸ consume_mismatch refused
      obtain ⟨read, eq, -⟩ := aligned _ anchor
      obtain ⟨d, ds, rfl⟩ : ∃ d ds, starS = d :: ds := by
        cases starS with
        | nil => simp [string] at eq
        | cons d ds => exact ⟨d, ds, rfl⟩
      rw [Cursor.Matches, or_iff_right lost]
      constructor
      · rintro ⟨anchor', mem, skipped, rest, some_, split, denoted⟩
        obtain rfl := Option.some.inj (anchor.symm.trans mem)
        cases skipped with
        | nil => exact absurd rfl some_
        | cons e skipped =>
          obtain ⟨-, split⟩ := List.cons.inj split
          cases skipped with
          | nil => exact .inl (by simpa [split] using denoted)
          | cons f more => exact .inr ⟨_, rfl, f :: more, rest, by simp, split, denoted⟩
      · rintro (denoted | ⟨anchor', mem, skipped, rest, some_, split, denoted⟩)
        · exact ⟨_, anchor, [d], ds, by simp, rfl, denoted⟩
        · cases mem
          exact ⟨_, anchor, d :: skipped, rest, by simp, congrArg (d :: ·) split, denoted⟩

theorem scan_iff (c : Cursor) (ordered : c.Ordered) (aligned : c.Aligned) :
    scan c ordered = true ↔ c.Matches := by
  fun_induction scan c ordered with
  | case1 c ordered answer turn => exact Cursor.next_inr aligned turn
  | case2 c ordered c' turn ih =>
    obtain ⟨kept, same⟩ := Cursor.next_matches aligned turn
    exact (ih kept).trans same.symm

/-- `glob_match` decides the language of the pattern. -/
theorem globMatch_iff (s pattern : String) :
    globMatch s pattern = true ↔ Denotes pattern.toList s.toList := by
  rw [globMatch, scan_iff _ _ (by simp [Cursor.Aligned]), Cursor.Matches]
  simp

end Relon.Unicode.Glob
