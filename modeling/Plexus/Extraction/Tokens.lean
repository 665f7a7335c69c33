import Plexus.Extraction.Candidates

/-!
# What a token is

`tokenize(text)` is `re.findall(r'\b[a-z][a-z\-]+[a-z]\b', text.lower())`. What it accepts is
well formed: every token is at least three characters of `[a-z-]` that begin and end with a
letter, wherever a scan of the pattern finds it (`TokenShape.of_mem_scan`).

## Tokens joined back

The script joins tokens with single spaces to make its n-gram terms (`' '.join(gram)`). The
tokenizer reads such a join back exactly: for a list of words, `tokenize(' '.join(words))` is the
list itself if and only if every word has the shape of a token (`tokenize_strJoin_iff`). In
particular the token stream of every text is a fixed point of joining and tokenizing again.

The proof reads the join one word at a time. A space stops every scan of the pattern
(`tokenPattern_stops_space`), so each word is scanned alone; a word of token shape is read whole
to the accepting state (`TokenShape.run`), so it is its own longest match; and lowering keeps a
join of such words.
-/

namespace Plexus

variable {db : UnicodeDb}

/-- `[a-z][a-z\-]+[a-z]`: at least three characters of `[a-z-]`, the first and the last letters. -/
structure TokenShape (tok : Str) : Prop where
  three_le_length : 3 ≤ tok.length
  isTokenChar_of_mem : ∀ c ∈ tok, isTokenChar c
  head_isLower : ∀ c ∈ tok.head?, isLowerAscii c
  last_isLower : ∀ c ∈ tok.getLast?, isLowerAscii c

/-! ## The states of a token scan -/

/-- What a scan of the token pattern has read in each state. -/
def TokenInv : TokenState → Str → Prop
  | .start, w => w = []
  | .first, w => w.length = 1 ∧ ∀ c ∈ w, isLowerAscii c
  | .second, w => w.length = 2 ∧ (∀ c ∈ w.head?, isLowerAscii c) ∧ ∀ c ∈ w, isTokenChar c
  | .body b, w => 3 ≤ w.length ∧ (∀ c ∈ w.head?, isLowerAscii c) ∧ (∀ c ∈ w, isTokenChar c) ∧
      ∀ c ∈ w.getLast?, isLowerAscii c = b

/-- Past its first two characters the pattern reads `[a-z\-]`, and remembers whether the last
one is a letter. -/
theorem tokenPattern_step_of_two {q : TokenState} (h₀ : q ≠ .start) (h₁ : q ≠ .first) (c : Char) :
    (tokenPattern db).step q c = if isTokenChar c then some (.body (isLowerAscii c)) else none := by
  cases q <;> first | rfl | contradiction

theorem isTokenChar_of_isLowerAscii {c : Char} (h : isLowerAscii c) : isTokenChar c := by
  simp [isTokenChar, h]

/-- A read of at least two characters that takes one more `[a-z\-]`. -/
theorem tokenInv_body_snoc {w : Str} (hlen : 2 ≤ w.length) (hhead : ∀ c ∈ w.head?, isLowerAscii c)
    (hchars : ∀ c ∈ w, isTokenChar c) {c : Char} (hc : isTokenChar c) :
    TokenInv (.body (isLowerAscii c)) (w ++ [c]) := by
  have hne : w ≠ [] := List.ne_nil_of_length_pos (by omega)
  refine ⟨by simp; omega, by rwa [List.head?_append_of_ne_nil _ hne], fun d hd ↦ ?_, by simp⟩
  rcases List.mem_append.mp hd with hd | hd
  · exact hchars d hd
  · rwa [List.mem_singleton.mp hd]

theorem tokenInv_step {q q' : TokenState} {c : Char} {w : Str}
    (h : (tokenPattern db).step q c = some q') (hw : TokenInv q w) : TokenInv q' (w ++ [c]) := by
  cases q with
  | start =>
    simp only [tokenPattern] at h
    split_ifs at h with hc
    cases h
    cases hw
    exact ⟨rfl, by simpa using hc⟩
  | first =>
    simp only [tokenPattern] at h
    split_ifs at h with hc
    cases h
    obtain ⟨hlen, hlow⟩ := hw
    obtain ⟨a, rfl⟩ : ∃ a, w = [a] := List.length_eq_one.mp hlen
    have ha := hlow a (List.mem_singleton_self a)
    refine ⟨rfl, by simpa using ha, fun d hd ↦ ?_⟩
    rcases List.mem_cons.mp hd with rfl | hd
    · exact isTokenChar_of_isLowerAscii ha
    · rwa [List.mem_singleton.mp hd]
  | second =>
    rw [tokenPattern_step_of_two (by simp) (by simp)] at h
    split_ifs at h with hc
    cases h
    obtain ⟨hlen, hhead, hchars⟩ := hw
    exact tokenInv_body_snoc hlen.ge hhead hchars hc
  | body b =>
    rw [tokenPattern_step_of_two (by simp) (by simp)] at h
    split_ifs at h with hc
    cases h
    obtain ⟨hlen, hhead, hchars, -⟩ := hw
    exact tokenInv_body_snoc (by omega) hhead hchars hc

/-- Every match of the token pattern, wherever a scan finds it, is at least three characters of
`[a-z-]` whose first and last characters are letters. -/
theorem TokenShape.of_mem_scan {tok : Str} {k : ℕ} {prev : Option Char} {s : Str}
    (h : tok ∈ (tokenPattern db).scan k prev s) : TokenShape tok := by
  obtain ⟨q, next, hrun, hacc⟩ := (tokenPattern db).run_of_mem_scan h
  have hinv := (tokenPattern db).run_invariant TokenInv (fun _ _ _ _ ↦ tokenInv_step) hrun
    (show TokenInv .start [] from rfl)
  rw [List.nil_append] at hinv
  cases q with
  | body b =>
    cases b
    · simp [tokenPattern] at hacc
    · obtain ⟨hlen, hhead, hchars, hlast⟩ := hinv
      exact ⟨hlen, hchars, hhead, hlast⟩
  | _ => simp [tokenPattern] at hacc

/-! ## A token is its own longest match -/

theorem run_body {w : Str} (hw : w ≠ []) (hchars : ∀ c ∈ w, isTokenChar c) :
    ∀ {q : TokenState}, q ≠ .start → q ≠ .first →
      (tokenPattern db).run q w = some (.body (isLowerAscii (w.getLast hw))) := by
  induction w with
  | nil => exact absurd rfl hw
  | cons c cs ih =>
    intro q h₀ h₁
    have hc := hchars c (List.mem_cons_self c cs)
    simp only [Pattern.run, tokenPattern_step_of_two h₀ h₁, if_pos hc, Option.some_bind]
    rcases cs with _ | ⟨d, ds⟩
    · rfl
    · rw [ih (List.cons_ne_nil _ _) (fun d hd ↦ hchars d (List.mem_cons_of_mem c hd))
        (by simp) (by simp), List.getLast_cons_cons]

/-- A word of token shape is read whole, to the state after a letter. -/
theorem TokenShape.run {tok : Str} (h : TokenShape tok) :
    (tokenPattern db).run .start tok = some (.body true) := by
  obtain ⟨hlen, hchars, hhead, hlast⟩ := h
  match tok, hlen with
  | a :: b :: c :: rest, _ =>
    have ha : isLowerAscii a := hhead a rfl
    have hb := hchars b (by simp)
    have hrest : (tokenPattern db).run .second (c :: rest)
        = some (.body (isLowerAscii ((c :: rest).getLast (List.cons_ne_nil c rest)))) :=
      run_body (List.cons_ne_nil c rest)
        (fun d hd ↦ hchars d (List.mem_cons_of_mem a (List.mem_cons_of_mem b hd))) (by simp)
        (by simp)
    have hl : isLowerAscii ((c :: rest).getLast (List.cons_ne_nil c rest)) :=
      hlast _ (by rw [List.getLast?_eq_getLast _ (by simp), List.getLast_cons_cons,
        List.getLast_cons_cons]; rfl)
    have h₁ : (tokenPattern db).step .start a = some .first := by simp [tokenPattern, ha]
    have h₂ : (tokenPattern db).step .first b = some .second := by simp [tokenPattern, hb]
    rw [Pattern.run.eq_2, h₁, Option.some_bind, Pattern.run.eq_2, h₂, Option.some_bind, hrest, hl]

/-- A space stops every scan of the token pattern. -/
theorem tokenPattern_stops_space : (tokenPattern db).Stops ' ' := by
  refine ⟨fun q ↦ ?_, fun q ↦ ?_⟩
  · cases q <;> rfl
  · have : db.isWord ' ' = false := UnicodeDb.isWord_of_isSpace rfl
    cases q with
    | body b => cases b <;> simp [tokenPattern, this]
    | _ => rfl

/-- A word of token shape, scanned alone after a non-word character, is one match. -/
theorem scan_tokenShape {tok : Str} (h : TokenShape tok) {prev : Option Char}
    (hprev : (tokenPattern db).behind prev = true) : (tokenPattern db).scan 0 prev tok = [tok] := by
  obtain ⟨c, cs, rfl⟩ : ∃ c cs, tok = c :: cs := List.exists_cons_of_ne_nil
    (List.ne_nil_of_length_pos (by have := h.three_le_length; omega))
  have hm : (tokenPattern db).matchAt prev (c :: cs) = some (c :: cs).length := by
    rw [Pattern.matchAt, if_pos hprev]
    exact (tokenPattern db).longest_of_run (List.cons_ne_nil c cs) h.run rfl
  rw [Pattern.scan.eq_3, hm]
  simp only [List.length_cons, List.take_succ_cons, List.take_length, Nat.add_sub_cancel]
  rw [(tokenPattern db).scan_of_length_le _ _ _ le_rfl]

/-! ## Lowering a join of tokens -/

theorem lower_eq_self_of_isTokenChar {w : Str} (h : ∀ c ∈ w, isTokenChar c) : db.lower w = w := by
  have hc : ∀ c ∈ w, c.toNat < 128 ∧ c.toLower = c := fun c hc ↦ by
    have := h c hc
    simp only [isTokenChar, Bool.or_eq_true, beq_iff_eq] at this
    rcases this with hl | rfl
    · exact ⟨toNat_lt_of_isLowerAscii hl, toLower_eq_self (isUpperAscii_of_isLowerAscii hl)⟩
    · exact ⟨by decide, by decide⟩
  rw [db.lower_ascii w fun c hc' ↦ (hc c hc').1]
  calc w.map Char.toLower = w.map id := List.map_congr_left fun c hc' ↦ (hc c hc').2
    _ = w := List.map_id w

theorem lower_strJoin_of_tokenShape {ws : List Str} (h : ∀ w ∈ ws, TokenShape w) :
    db.lower (strJoin ws) = strJoin ws := by
  induction ws with
  | nil => exact db.lower_nil
  | cons w ws ih =>
    have hw : db.lower w = w := lower_eq_self_of_isTokenChar (h w (List.mem_cons_self w ws)).2
    cases ws with
    | nil => simpa using hw
    | cons v vs =>
      rw [strJoin_cons_cons, db.lower_append_space _ _ ' ' rfl, hw,
        ih fun v hv ↦ h v (List.mem_cons_of_mem w hv)]

/-! ## Tokens joined back -/

theorem scan_strJoin {ws : List Str} (h : ∀ w ∈ ws, TokenShape w) {prev : Option Char}
    (hprev : (tokenPattern db).behind prev = true) :
    (tokenPattern db).scan 0 prev (strJoin ws) = ws := by
  induction ws generalizing prev with
  | nil => rfl
  | cons w ws ih =>
    have hw := h w (List.mem_cons_self w ws)
    cases ws with
    | nil => simpa using scan_tokenShape hw hprev
    | cons v vs =>
      rw [strJoin_cons_cons, (tokenPattern db).scan_append_stop tokenPattern_stops_space _ _ 0 prev
        (Nat.zero_le _), scan_tokenShape hw hprev,
        ih (fun u hu ↦ h u (List.mem_cons_of_mem w hu))
          (by simp [tokenPattern, UnicodeDb.isWord_of_isSpace (show isSpace ' ' = true from rfl)])]
      rfl

/-- Words of token shape, space-joined, tokenize back to themselves. -/
theorem tokenize_strJoin {ws : List Str} (h : ∀ w ∈ ws, TokenShape w) :
    tokenize db (strJoin ws) = ws := by
  rw [tokenize, lower_strJoin_of_tokenShape h, Pattern.findall]
  exact scan_strJoin h rfl

/-- **Tokens joined back.** Tokenizing the space-join of a list of words gives the list back
exactly when every word has the shape of a token. -/
theorem tokenize_strJoin_iff (ws : List Str) :
    tokenize db (strJoin ws) = ws ↔ ∀ w ∈ ws, TokenShape w :=
  ⟨fun h w hw ↦ TokenShape.of_mem_scan (h.symm ▸ hw : w ∈ tokenize db (strJoin ws)),
    tokenize_strJoin⟩

/-- The token stream of every text is a fixed point of joining and tokenizing again. -/
theorem tokenize_strJoin_tokenize (text : Str) :
    tokenize db (strJoin (tokenize db text)) = tokenize db text :=
  tokenize_strJoin fun _ hw ↦ TokenShape.of_mem_scan hw

end Plexus
