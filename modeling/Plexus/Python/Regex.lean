import Plexus.Python.Str

/-!
# The `re` engine on the script's patterns

Every pattern of the script is a chain of character classes under greedy quantifiers, fenced by
zero-width tests: a `\b` or a lookbehind in front, a `\b` or a lookahead behind. On such a pattern
the backtracking engine started at one position tries the longest way through the quantifiers
first and gives back one character at a time, and each candidate prefix has at most one way
through the pattern. So the match at a position is the *longest* prefix that the pattern's
automaton reads to an accepting stop, where acceptance may look at the character after the stop.

A `Pattern` is that automaton together with the test in front of the match. `Pattern.scan` is
`re.finditer`: it tries every position from left to right and resumes after each match, and
`Pattern.split` is `re.split`, which cuts the string at the same matches.

## Locality

`scan_append_stop` is what the paragraph law rests on: a character that no state of the automaton
reads, and that the closing test treats like the end of the string, cuts the scan in two.
-/

namespace Plexus

/-- A pattern, as the scan the `re` engine makes of it from one position. -/
structure Pattern (σ : Type) where
  /-- The zero-width test in front of the match, on the character before it. -/
  behind : Option Char → Bool
  /-- The state before the first character of the match. -/
  start : σ
  /-- Reading one character; `none` when no way through the pattern continues. -/
  step : σ → Char → Option σ
  /-- Whether the match may stop in a state, given the character after the stop (`none` at the
  end of the string): the closing `\b` or lookahead. -/
  accept : σ → Option Char → Bool

namespace Pattern

variable {σ : Type} (P : Pattern σ)

/-- The length of the longest prefix of `s` that the automaton reads from `q` to an accepting
stop. -/
def longest : σ → List Char → Option ℕ
  | _, [] => none
  | q, c :: cs =>
    match P.step q c with
    | none => none
    | some q' =>
      match longest q' cs with
      | some n => some (n + 1)
      | none => if P.accept q' cs.head? then some 1 else none

/-- The length of the match that starts in front of `s`, given the character before it. -/
def matchAt (prev : Option Char) (s : List Char) : Option ℕ :=
  if P.behind prev then P.longest P.start s else none

/-- `re.finditer`: from each position try `matchAt`, and after a match of length `n` resume `n`
characters on. `skip` counts the characters of the last match still to pass and `prev` is the
character before the scan position. -/
def scan : ℕ → Option Char → List Char → List Str
  | _, _, [] => []
  | k + 1, _, c :: cs => scan k (some c) cs
  | 0, prev, c :: cs =>
    match P.matchAt prev (c :: cs) with
    | some n => (c :: cs).take n :: scan (n - 1) (some c) cs
    | none => scan 0 (some c) cs

/-- The matches of the pattern in `s`, left to right. -/
def findall (s : List Char) : List Str := P.scan 0 none s

/-- `re.split`: the pieces between the matches that `scan` finds. `piece` is the current piece so
far, reversed. -/
def split : ℕ → Option Char → List Char → List Char → List Str
  | _, _, piece, [] => [piece.reverse]
  | k + 1, _, piece, c :: cs => split k (some c) piece cs
  | 0, prev, piece, c :: cs =>
    match P.matchAt prev (c :: cs) with
    | some n => piece.reverse :: split (n - 1) (some c) [] cs
    | none => split 0 (some c) (c :: piece) cs

/-! ## Match lengths -/

theorem longest_pos_le {q : σ} {s : List Char} {n : ℕ} (h : P.longest q s = some n) :
    1 ≤ n ∧ n ≤ s.length := by
  induction s generalizing q n with
  | nil => simp [longest] at h
  | cons c cs ih =>
    simp only [longest] at h
    split at h
    · cases h
    · split at h
      · cases h
        have := ih ‹_›
        simp only [List.length_cons]
        omega
      · split at h <;> simp_all

theorem matchAt_pos_le {prev : Option Char} {s : List Char} {n : ℕ}
    (h : P.matchAt prev s = some n) : 1 ≤ n ∧ n ≤ s.length := by
  simp only [matchAt] at h
  split at h
  · exact P.longest_pos_le h
  · cases h

/-! ## Locality -/

section Stop

variable {P} {sp : Char}

/-- `sp` stops every scan: no state reads it, and the closing test treats it like the end of the
string. -/
def Stops (P : Pattern σ) (sp : Char) : Prop :=
  (∀ q, P.step q sp = none) ∧ ∀ q, P.accept q (some sp) = P.accept q none

theorem longest_append_stop (h : P.Stops sp) (q : σ) (x y : List Char) :
    P.longest q (x ++ sp :: y) = P.longest q x := by
  induction x generalizing q with
  | nil => simp [longest, h.1]
  | cons c x ih =>
    simp only [List.cons_append, longest.eq_2, ih]
    cases x <;> simp [h.2]

theorem matchAt_append_stop (h : P.Stops sp) (prev : Option Char) (x y : List Char) :
    P.matchAt prev (x ++ sp :: y) = P.matchAt prev x := by
  simp only [matchAt, longest_append_stop h]

theorem scan_congr_prev {p₁ p₂ : Option Char} (h : P.behind p₁ = P.behind p₂) (k : ℕ)
    (s : List Char) : P.scan k p₁ s = P.scan k p₂ s := by
  rcases s with _ | ⟨c, cs⟩ <;> cases k <;> simp [scan, matchAt, h]

/-- **Locality of the scan.** A stop character cuts the scan: the matches in front of it are the
matches of the front alone, and the scan behind it starts afresh. -/
theorem scan_append_stop (h : P.Stops sp) (x y : List Char) :
    ∀ (k : ℕ) (prev : Option Char), k ≤ x.length →
      P.scan k prev (x ++ sp :: y) = P.scan k prev x ++ P.scan 0 (some sp) y := by
  induction x with
  | nil =>
    intro k prev hk
    obtain rfl : k = 0 := by simpa using hk
    simp [scan, matchAt, longest, h.1]
  | cons c x ih =>
    intro k prev hk
    cases k with
    | succ k => simpa [scan] using ih k (some c) (by simpa using hk)
    | zero =>
      have hm := matchAt_append_stop h prev (c :: x) y
      rw [List.cons_append] at hm
      rw [List.cons_append, scan.eq_3, hm, scan.eq_3]
      cases hn : P.matchAt prev (c :: x) with
      | none => exact ih 0 (some c) (Nat.zero_le _)
      | some n =>
        have hle := P.matchAt_pos_le hn
        simp only [List.length_cons] at hle
        dsimp only
        rw [← List.cons_append, List.take_append_of_le_length (by simpa using hle.2),
          ih (n - 1) (some c) (by omega), List.cons_append]

end Stop

/-- A scan still passing over the rest of a match finds nothing. -/
theorem scan_of_length_le (prev : Option Char) (s : List Char) :
    ∀ k, s.length ≤ k → P.scan k prev s = [] := by
  induction s generalizing prev with
  | nil => intro k _; cases k <;> rfl
  | cons c cs ih =>
    intro k hk
    obtain ⟨k, rfl⟩ : ∃ k', k = k' + 1 := ⟨k - 1, by simp at hk; omega⟩
    rw [scan.eq_2]
    exact ih (some c) k (by simpa using hk)

/-- A scan finds nothing in a string none of whose characters can begin a match. -/
theorem scan_eq_nil {s : List Char} (hs : ∀ c ∈ s, P.step P.start c = none) :
    ∀ (k : ℕ) (prev : Option Char), P.scan k prev s = [] := by
  induction s with
  | nil => intro k prev; cases k <;> rfl
  | cons c cs ih =>
    intro k prev
    have hc := hs c (List.mem_cons_self c cs)
    have ht := ih fun d hd ↦ hs d (List.mem_cons_of_mem c hd)
    cases k <;> simp [scan, matchAt, longest, hc, ht]

/-! ## What a match reads -/

/-- Reading a string from a state, one character at a time. -/
def run : σ → List Char → Option σ
  | q, [] => some q
  | q, c :: cs => (P.step q c).bind fun q' ↦ run q' cs

/-- The longest accepted prefix is read to an accepting state. -/
theorem run_of_longest {q : σ} {s : List Char} {n : ℕ} (h : P.longest q s = some n) :
    ∃ q', P.run q (s.take n) = some q' ∧ P.accept q' (s.drop n).head? = true := by
  induction s generalizing q n with
  | nil => simp [longest] at h
  | cons c cs ih =>
    simp only [longest] at h
    cases hq : P.step q c with
    | none => simp [hq] at h
    | some q' =>
      simp only [hq] at h
      cases hl : P.longest q' cs with
      | some m =>
        simp only [hl, Option.some.injEq] at h
        subst h
        obtain ⟨q'', hrun, hacc⟩ := ih hl
        exact ⟨q'', by simpa [run, hq] using hrun, by simpa using hacc⟩
      | none =>
        simp only [hl] at h
        split_ifs at h with hacc
        cases h
        exact ⟨q', by simp [run, hq], by simpa using hacc⟩

/-- A string the automaton reads whole, to a state that may stop at the end of the string, is its
own longest match. -/
theorem longest_of_run {q q' : σ} {s : List Char} (hs : s ≠ []) (h : P.run q s = some q')
    (hacc : P.accept q' none = true) : P.longest q s = some s.length := by
  induction s generalizing q with
  | nil => exact absurd rfl hs
  | cons c cs ih =>
    simp only [run, Option.bind_eq_some] at h
    obtain ⟨q₁, hq₁, hrun⟩ := h
    rcases cs with _ | ⟨d, ds⟩
    · simp only [run, Option.some.injEq] at hrun
      subst hrun
      simp [longest, hq₁, hacc]
    · rw [longest.eq_2, hq₁]
      dsimp only
      rw [ih (List.cons_ne_nil _ _) hrun]
      rfl

/-- **What a match is.** Every string `scan` finds is read from the start state to a state where
the pattern may stop. -/
theorem run_of_mem_scan {m : Str} {k : ℕ} {prev : Option Char} {s : List Char}
    (h : m ∈ P.scan k prev s) : ∃ q next, P.run P.start m = some q ∧ P.accept q next = true := by
  induction s generalizing k prev with
  | nil => cases k <;> cases h
  | cons c cs ih =>
    cases k with
    | succ k => exact ih (by rwa [scan.eq_2] at h)
    | zero =>
      rw [scan.eq_3] at h
      cases hn : P.matchAt prev (c :: cs) with
      | none => rw [hn] at h; exact ih h
      | some n =>
        rw [hn] at h
        rcases List.mem_cons.mp h with rfl | h
        · simp only [matchAt] at hn
          split_ifs at hn
          obtain ⟨q, hq, hacc⟩ := P.run_of_longest hn
          exact ⟨q, _, hq, hacc⟩
        · exact ih h

/-- Every match is a piece of the scanned string. -/
theorem infix_of_mem_scan {m : Str} {k : ℕ} {prev : Option Char} {s : List Char}
    (h : m ∈ P.scan k prev s) : m <:+: s := by
  induction s generalizing k prev with
  | nil => cases k <;> cases h
  | cons c cs ih =>
    cases k with
    | succ k => exact (ih (by rwa [scan.eq_2] at h)).trans (List.suffix_cons c cs).isInfix
    | zero =>
      rw [scan.eq_3] at h
      split at h
      · rcases List.mem_cons.mp h with rfl | h
        · exact (List.take_prefix _ _).isInfix
        · exact (ih h).trans (List.suffix_cons c cs).isInfix
      · exact (ih h).trans (List.suffix_cons c cs).isInfix

/-- A match of a pattern that cannot stop before reading opens with a character the start state
reads. -/
theorem exists_step_start_of_mem_scan (hstart : ∀ next, P.accept P.start next = false)
    {m : Str} {k : ℕ} {prev : Option Char} {s : List Char} (h : m ∈ P.scan k prev s) :
    ∃ c cs q, m = c :: cs ∧ P.step P.start c = some q := by
  obtain ⟨q, next, hrun, hacc⟩ := P.run_of_mem_scan h
  cases m with
  | nil =>
    simp only [run, Option.some.injEq] at hrun
    subst hrun
    simp [hstart] at hacc
  | cons c cs =>
    simp only [run, Option.bind_eq_some] at hrun
    obtain ⟨q₁, hq₁, -⟩ := hrun
    exact ⟨c, cs, q₁, rfl, hq₁⟩

/-- A character class every step reads holds of every character a run reads. -/
theorem forall_mem_of_run {p : Char → Prop} (hp : ∀ q c q', P.step q c = some q' → p c) :
    ∀ {q q' : σ} {w : List Char}, P.run q w = some q' → ∀ c ∈ w, p c
  | _, _, [], _ => by simp
  | q, _, c :: cs, h => by
    simp only [run, Option.bind_eq_some] at h
    obtain ⟨q₁, hq₁, hrun⟩ := h
    intro d hd
    rcases List.mem_cons.mp hd with rfl | hd
    · exact hp q d q₁ hq₁
    · exact forall_mem_of_run hp hrun d hd

/-- An invariant of the read prefix that every step keeps holds at the end of a run. -/
theorem run_invariant (inv : σ → List Char → Prop)
    (hstep : ∀ q c q' w, P.step q c = some q' → inv q w → inv q' (w ++ [c])) :
    ∀ {q q' : σ} {w u : List Char}, P.run q w = some q' → inv q u → inv q' (u ++ w)
  | _, _, [], _, h, hu => by
    simp only [run, Option.some.injEq] at h
    subst h
    simpa using hu
  | q, _, c :: cs, u, h, hu => by
    simp only [run, Option.bind_eq_some] at h
    obtain ⟨q₁, hq₁, hrun⟩ := h
    simpa using run_invariant inv hstep hrun (hstep q c q₁ u hq₁ hu)

/-! ## Splitting -/

/-- Passing the rest of a match. -/
theorem split_skip (prev : Option Char) (piece m t : List Char) :
    P.split m.length prev piece (m ++ t) = P.split 0 (m.getLast? <|> prev) piece t := by
  induction m generalizing prev with
  | nil => rfl
  | cons c m ih =>
    simp only [List.length_cons, List.cons_append, split.eq_2, ih]
    cases m <;> simp [List.getLast?_cons]

end Pattern

end Plexus
