import Plexus.Extraction.FusionOrder

/-!
# Where the returned terms come from

Every term `process` returns was pooled by `merge_and_rank` and kept by its post-filter
(`mem_candidateSeq_of_process`). A pooled term is a TextRank word, a paragraph bigram or trigram,
or a lowercased compound (`mem_candidateSeq`), and each source is local:

* a token is a non-empty run of `[a-z-]`, so it is a single word (`strSplit_of_mem_tokenize`);
* an n-gram is the space-join of consecutive tokens of one piece of `re.split(r'\n\s*\n', text)`
  (`mem_extractNgramsFromParagraphs`, `mem_tokenizeByParagraph`);
* a compound is found on one line, and every line of the text lies inside one paragraph or inside
  a separator; the lines of a separator are blank and hold no compound
  (`exists_paragraph_of_mem_extractCompoundTerms`).

## Whitespace

Tokens, n-grams, hyphenated compounds and CamelCase identifiers are words joined by single spaces
(`hyphenatedTerms_normal`, `camel_normal`). The capitalized-phrase and quoted-term patterns copy
their span of the line, and with it any run of whitespace.
-/

namespace Plexus

variable {db : UnicodeDb}

/-! ## Tokens -/

theorem isTokenChar_of_tokenPattern_step {q q' : TokenState} {c : Char}
    (h : (tokenPattern db).step q c = some q') : isTokenChar c := by
  cases q <;> simp only [tokenPattern] at h <;> split_ifs at h with hc <;>
    simp_all [isTokenChar]

theorem isSpace_of_isTokenChar {c : Char} (h : isTokenChar c) : isSpace c = false := by
  cases hs : isSpace c
  · rfl
  · simp only [isTokenChar, isLowerAscii_of_isSpace hs, Bool.false_or, beq_iff_eq] at h
    subst h
    cases hs

/-- **Tokens.** Every token is a non-empty run of `[a-z-]`. -/
theorem mem_tokenize {text tok : Str} (h : tok ∈ tokenize db text) :
    tok ≠ [] ∧ ∀ c ∈ tok, isTokenChar c := by
  obtain ⟨q, next, hrun, hacc⟩ := (tokenPattern db).run_of_mem_scan h
  refine ⟨?_, (tokenPattern db).forall_mem_of_run
    (fun _ _ _ ↦ isTokenChar_of_tokenPattern_step) hrun⟩
  rintro rfl
  simp only [Pattern.run, Option.some.injEq] at hrun
  subst hrun
  simp [tokenPattern] at hacc

theorem strSplit_of_mem_tokenize {text tok : Str} (h : tok ∈ tokenize db text) :
    strSplit tok = [tok] :=
  strSplit_eq_singleton (mem_tokenize h).1 fun c hc ↦
    isSpace_of_isTokenChar ((mem_tokenize h).2 c hc)

theorem strSplit_strJoin_tokens {text : Str} {toks : List Str}
    (h : ∀ tok ∈ toks, tok ∈ tokenize db text) : strSplit (strJoin toks) = toks :=
  strSplit_strJoin fun tok htok ↦ ⟨(mem_tokenize (h tok htok)).1, fun c hc ↦
    isSpace_of_isTokenChar ((mem_tokenize (h tok htok)).2 c hc)⟩

/-! ## N-grams and paragraphs -/

/-- An n-gram is the space-join of `n` consecutive tokens of one paragraph. -/
theorem mem_extractNgramsFromParagraphs {pts : List (List Str)} {n : ℕ} {t : Str}
    (h : t ∈ extractNgramsFromParagraphs pts n) :
    ∃ tokens ∈ pts, ∃ i, i + n ≤ tokens.length ∧ t = strJoin ((tokens.drop i).take n) := by
  simp only [extractNgramsFromParagraphs, List.mem_flatMap, List.mem_filterMap,
    List.mem_range] at h
  obtain ⟨tokens, htok, i, hi, hsome⟩ := h
  split_ifs at hsome
  cases hsome
  exact ⟨tokens, htok, i, by omega, rfl⟩

theorem mem_tokenizeByParagraph {text : Str} {tokens : List Str}
    (h : tokens ∈ tokenizeByParagraph db text) :
    ∃ p ∈ splitParagraphs text, tokens = tokenize db p := by
  simp only [tokenizeByParagraph, List.mem_map, List.mem_filter] at h
  obtain ⟨p, ⟨hp, -⟩, rfl⟩ := h
  exact ⟨p, hp, rfl⟩

/-! ## Compounds -/

/-- A line of whitespace holds no compound: no pattern can start on a whitespace character. -/
theorem lineCompounds_of_forall_isSpace {line : Str} (h : ∀ c ∈ line, isSpace c) :
    lineCompounds db line = [] := by
  have hh : (hyphenPattern db).findall (db.lower line) = [] := by
    rw [UnicodeDb.lower_of_forall_isSpace h]
    exact Pattern.scan_eq_nil _ (fun c hc ↦ by
      simp [hyphenPattern, isLowerAscii_of_isSpace (h c hc)]) 0 none
  have hc : (camelPattern db).findall line = [] := Pattern.scan_eq_nil _ (fun c hc ↦ by
    simp [camelPattern, isUpperAscii_of_isSpace (h c hc)]) 0 none
  have hp : phrasePattern.findall line = [] := Pattern.scan_eq_nil _ (fun c hc ↦ by
    simp [phrasePattern, isUpperAscii_of_isSpace (h c hc)]) 0 none
  have hq : quotePattern.findall line = [] := Pattern.scan_eq_nil _ (fun c hc ↦ by
    simp [quotePattern, ne_of_isSpace (h c hc) (rfl : isSpace '"' = false)]) 0 none
  simp [lineCompounds, hyphenatedTerms, capitalizedPhrases, quotedTerms, hh, hc, hp, hq]

theorem extractCompoundTerms_of_forall_isSpace {w : Str} (h : ∀ c ∈ w, isSpace c) :
    extractCompoundTerms db w = [] :=
  List.flatMap_eq_nil_iff.mpr fun _ hline ↦
    lineCompounds_of_forall_isSpace fun c hc ↦ h c (mem_of_mem_strSplitLines hline hc)

theorem extractCompoundTerms_append_newline (xs ys : Str) :
    extractCompoundTerms db (xs ++ '\n' :: ys)
      = extractCompoundTerms db xs ++ extractCompoundTerms db ys := by
  rw [extractCompoundTerms, strSplitLines_append_newline, List.flatMap_append]
  rfl

/-- **Compounds are local to a paragraph.** Every compound of the text is a compound of one piece
of the blank-line split. -/
theorem exists_paragraph_of_mem_extractCompoundTerms {text ct : Str}
    (h : ct ∈ extractCompoundTerms db text) :
    ∃ p ∈ splitParagraphs text, ct ∈ extractCompoundTerms db p := by
  suffices ∀ {s ps}, BlankCut s ps → ct ∈ extractCompoundTerms db s →
      ∃ p ∈ ps, ct ∈ extractCompoundTerms db p from this (blankCut_splitParagraphs text) h
  intro s ps hcut
  induction hcut with
  | single p => exact fun h ↦ ⟨p, List.mem_singleton_self p, h⟩
  | cons p w hw _ ih =>
    intro h
    rw [extractCompoundTerms_append_newline, extractCompoundTerms_append_newline,
      extractCompoundTerms_of_forall_isSpace hw, List.nil_append, List.mem_append] at h
    rcases h with h | h
    · exact ⟨p, List.mem_cons_self _ _, h⟩
    · obtain ⟨p', hp', h'⟩ := ih h
      exact ⟨p', List.mem_cons_of_mem _ hp', h'⟩

/-! ## The pool and the output -/

theorem mem_of_mem_counter {l : List Str} {kv : Str × ℕ} (h : kv ∈ counter l) : kv.1 ∈ l := by
  obtain ⟨x, hx, rfl⟩ := List.mem_map.mp h
  exact mem_firstOccurrences.mp hx

/-- **The pool.** A pooled term is a TextRank word, a paragraph bigram or trigram, or the
lowercase of a compound. -/
theorem mem_candidateSeq {trScores : List (Str × ℚ)} {compoundTerms : List Str}
    {paragraphTokens : List (List Str)} {x : Str}
    (h : x ∈ candidateSeq db trScores compoundTerms paragraphTokens) :
    x ∈ trScores.map Prod.fst ∨ x ∈ extractNgramsFromParagraphs paragraphTokens 2 ∨
      x ∈ extractNgramsFromParagraphs paragraphTokens 3 ∨
        ∃ ct ∈ compoundTerms, x = db.lower ct := by
  simp only [candidateSeq, List.mem_append, List.mem_filter] at h
  rcases h with ((⟨hx, -⟩ | hx) | hx) | ⟨hx, -⟩
  · exact .inl hx
  · obtain ⟨kv, hkv, rfl⟩ := List.mem_map.mp hx
    exact .inr (.inl (mem_of_mem_counter (List.mem_filter.mp hkv).1))
  · obtain ⟨kv, hkv, rfl⟩ := List.mem_map.mp hx
    exact .inr (.inr (.inl (mem_of_mem_counter (List.mem_filter.mp hkv).1)))
  · obtain ⟨ct, hct, rfl⟩ := List.mem_map.mp hx
    exact .inr (.inr (.inr ⟨ct, hct, rfl⟩))

/-- **The output.** Every pair `process` returns holds a pooled term that the post-filter kept. -/
theorem mem_candidateSeq_of_process {ord : SetOrder} {text : Str} {out : Output}
    (h : process db ord text = .ok out) {x : Str × ℚ} (hx : x ∈ out.candidateTerms) :
    x.1 ∈ candidateSeq db (textrank ord (tokenize db text) 5 (85 / 100) 30)
        (extractCompoundTerms db text) (tokenizeByParagraph db text) ∧
      keepTerm x.1 = .ok true := by
  simp only [process] at h
  split_ifs at h
  · cases h
    cases hx
  · rw [mergeAndRank_eq] at h
    split_ifs at h
    · cases h
    · cases h
      obtain ⟨y, hy, rfl⟩ := List.mem_map.mp hx
      have hy := (List.perm_insertionSort _ _).subset (List.mem_of_mem_take hy)
      obtain ⟨hy, hkeep⟩ := List.mem_filter.mp hy
      obtain ⟨z, hz, rfl⟩ := List.mem_map.mp hy
      exact ⟨(SetOrder.mem_enum _ _ _).mp hz, by simpa using hkeep⟩

/-- The TextRank words are the content tokens. -/
theorem mem_content_of_mem_textrank {ord : SetOrder} {tokens : List Str} {window : ℕ}
    {damping : ℚ} {iterations : ℕ} {w : Str}
    (h : w ∈ (textrank ord tokens window damping iterations).map Prod.fst) :
    w ∈ tokens.filter isContentWord := by
  rw [textrank_eq_map, List.map_map] at h
  simp only [Function.comp_def, List.map_id'] at h
  split_ifs at h
  · cases h
  · exact (SetOrder.mem_enum _ _ _).mp h

theorem mem_tokens_of_mem_textrank {ord : SetOrder} {tokens : List Str} {window : ℕ}
    {damping : ℚ} {iterations : ℕ} {w : Str}
    (h : w ∈ (textrank ord tokens window damping iterations).map Prod.fst) : w ∈ tokens :=
  (List.mem_filter.mp (mem_content_of_mem_textrank h)).1

/-! ## Multi-word terms stay inside a paragraph -/

/-- **Paragraph locality.** Every returned term of two or more words comes from one piece `p` of
the blank-line split of the text: it is the space-join of two or three consecutive tokens of `p`,
or the lowercase of a compound of `p`. No piece holds a blank line
(`not_hasBlankLine_of_mem_splitParagraphs`), so no such term spans a blank-line separator. -/
theorem process_multiword_in_paragraph (db : UnicodeDb) (ord : SetOrder) (text : Str)
    (out : Output) (h : process db ord text = .ok out) {t : Str} {q : ℚ}
    (hmem : (t, q) ∈ out.candidateTerms) (hwords : 2 ≤ (strSplit t).length) :
    ∃ p ∈ splitParagraphs text,
      (∃ n ∈ [2, 3], ∃ i, i + n ≤ (tokenize db p).length ∧
        t = strJoin (((tokenize db p).drop i).take n)) ∨
      ∃ ct ∈ extractCompoundTerms db p, t = db.lower ct := by
  have ngram : ∀ n ∈ [2, 3], t ∈ extractNgramsFromParagraphs (tokenizeByParagraph db text) n →
      ∃ p ∈ splitParagraphs text, (∃ n ∈ [2, 3], ∃ i, i + n ≤ (tokenize db p).length ∧
        t = strJoin (((tokenize db p).drop i).take n)) ∨
      ∃ ct ∈ extractCompoundTerms db p, t = db.lower ct := fun n hn ht ↦ by
    obtain ⟨tokens, htok, i, hi, rfl⟩ := mem_extractNgramsFromParagraphs ht
    obtain ⟨p, hp, rfl⟩ := mem_tokenizeByParagraph htok
    exact ⟨p, hp, .inl ⟨n, hn, i, hi, rfl⟩⟩
  rcases mem_candidateSeq (mem_candidateSeq_of_process h hmem).1 with htr | h2 | h3 | ⟨ct, hct, rfl⟩
  · rw [strSplit_of_mem_tokenize (mem_tokens_of_mem_textrank htr)] at hwords
    simp at hwords
  · exact ngram 2 (by simp) h2
  · exact ngram 3 (by simp) h3
  · obtain ⟨p, hp, hct⟩ := exists_paragraph_of_mem_extractCompoundTerms hct
    exact ⟨p, hp, .inr ⟨ct, hct, rfl⟩⟩

theorem zeta_data_in_paragraph :
    ∃ p ∈ splitParagraphs "zeta data zeta data\n\nthe the the the the the".toList,
      (∃ n ∈ [2, 3], ∃ i, i + n ≤ (tokenize .ascii p).length ∧
        "zeta data".toList = strJoin (((tokenize .ascii p).drop i).take n)) ∨
      ∃ ct ∈ extractCompoundTerms .ascii p, "zeta data".toList = UnicodeDb.ascii.lower ct :=
  process_multiword_in_paragraph .ascii .firstSeen
    "zeta data zeta data\n\nthe the the the the the".toList
    ⟨true, [("zeta data".toList, 21 / 50)], ⟨10, some 3, some 0, some 0⟩⟩
    (by with_unfolding_all decide) (List.mem_singleton_self _) (by decide)

/-! ## Words joined by single spaces -/

/-- A non-empty run of `[a-z]`. -/
def LowerWord (w : Str) : Prop := w ≠ [] ∧ ∀ c ∈ w, isLowerAscii c

theorem isUpperAscii_of_isLowerAscii {c : Char} (h : isLowerAscii c) : isUpperAscii c = false := by
  simp only [isLowerAscii, isUpperAscii, decide_eq_true_eq, decide_eq_false_iff_not] at h ⊢
  omega

theorem toNat_lt_of_isLowerAscii {c : Char} (h : isLowerAscii c) : c.toNat < 128 := by
  simp only [isLowerAscii, decide_eq_true_eq] at h
  omega

theorem LowerWord.lower {w : Str} (h : LowerWord w) : db.lower w = w := by
  rw [db.lower_ascii w fun c hc ↦ toNat_lt_of_isLowerAscii (h.2 c hc)]
  calc w.map Char.toLower = w.map id :=
        List.map_congr_left fun c hc ↦ toLower_eq_self (isUpperAscii_of_isLowerAscii (h.2 c hc))
    _ = w := List.map_id w

theorem LowerWord.noSpace {w : Str} (h : LowerWord w) : ∀ c ∈ w, isSpace c = false := fun c hc ↦ by
  cases hs : isSpace c
  · rfl
  · simpa [isLowerAscii_of_isSpace hs] using h.2 c hc

theorem lower_strJoin_of_lowerWords {ws : List Str} (h : ∀ w ∈ ws, LowerWord w) :
    db.lower (strJoin ws) = strJoin ws := by
  induction ws with
  | nil => exact db.lower_nil
  | cons w ws ih =>
    have hw := h w (List.mem_cons_self w ws)
    cases ws with
    | nil => simpa using hw.lower
    | cons v vs =>
      rw [strJoin_cons_cons, db.lower_append_space _ _ ' ' rfl, hw.lower,
        ih fun v hv ↦ h v (List.mem_cons_of_mem w hv)]

/-- Lowercase words joined by single spaces are in whitespace-normal form, and lowering keeps
them. -/
theorem normal_of_lowerWords {ws : List Str} (h : ∀ w ∈ ws, LowerWord w) :
    strJoin (strSplit (db.lower (strJoin ws))) = db.lower (strJoin ws) := by
  rw [lower_strJoin_of_lowerWords h, strSplit_strJoin fun w hw ↦ ⟨(h w hw).1, (h w hw).noSpace⟩]

theorem strJoin_append_singleton {ws : List Str} (hws : ws ≠ []) (v : Str) :
    strJoin (ws ++ [v]) = strJoin ws ++ ' ' :: v := by
  induction ws with
  | nil => exact absurd rfl hws
  | cons w ws ih =>
    cases ws with
    | nil => simp [strJoin_cons_cons]
    | cons u us =>
      show strJoin (w :: u :: (us ++ [v])) = _
      rw [strJoin_cons_cons, ← List.cons_append, ih (List.cons_ne_nil u us), strJoin_cons_cons]
      simp

/-- What a scan of the hyphen pattern has read, hyphens turned into spaces: lowercase segments
joined by single spaces, and a space after the last one when a hyphen was just read. -/
def HyphenInv : HyphenState → Str → Prop
  | .start, w => w = []
  | .firstSegment, w => LowerWord (dehyphen w)
  | .afterHyphen, w => ∃ ws, ws ≠ [] ∧ (∀ v ∈ ws, LowerWord v) ∧ dehyphen w = strJoin ws ++ [' ']
  | .laterSegment, w => ∃ ws v, ws ≠ [] ∧ (∀ u ∈ ws, LowerWord u) ∧ LowerWord v ∧
      dehyphen w = strJoin ws ++ ' ' :: v

theorem dehyphen_append_letter (w : Str) {c : Char} (hc : isLowerAscii c) :
    dehyphen (w ++ [c]) = dehyphen w ++ [c] := by
  have : c ≠ '-' := by rintro rfl; cases hc
  simp [dehyphen, this]

theorem dehyphen_append_hyphen (w : Str) : dehyphen (w ++ ['-']) = dehyphen w ++ [' '] := by
  simp [dehyphen]

theorem LowerWord.append {w : Str} (hw : LowerWord w) {c : Char} (hc : isLowerAscii c) :
    LowerWord (w ++ [c]) :=
  ⟨by simp, fun d hd ↦ by rcases List.mem_append.mp hd with hd | hd <;> simp_all [LowerWord]⟩

theorem lowerWord_singleton {c : Char} (hc : isLowerAscii c) : LowerWord [c] :=
  ⟨by simp, by simpa using hc⟩

theorem hyphenInv_step {q q' : HyphenState} {c : Char} {w : Str}
    (h : (hyphenPattern db).step q c = some q') (hw : HyphenInv q w) : HyphenInv q' (w ++ [c]) := by
  cases q <;> simp only [hyphenPattern] at h <;> split_ifs at h with hc <;> cases h
  · subst hw
    show LowerWord (dehyphen ([] ++ [c]))
    rw [dehyphen_append_letter _ hc]
    exact lowerWord_singleton hc
  · show LowerWord (dehyphen (w ++ [c]))
    rw [dehyphen_append_letter _ hc]
    exact hw.append hc
  · obtain rfl : c = '-' := ‹_›
    exact ⟨[dehyphen w], by simp, by simpa using hw, by simp [dehyphen_append_hyphen]⟩
  · obtain ⟨ws, hne, hws, heq⟩ := hw
    exact ⟨ws, [c], hne, hws, lowerWord_singleton hc, by simp [dehyphen_append_letter _ hc, heq]⟩
  · obtain ⟨ws, v, hne, hws, hv, heq⟩ := hw
    exact ⟨ws, v ++ [c], hne, hws, hv.append hc, by simp [dehyphen_append_letter _ hc, heq]⟩
  · obtain rfl : c = '-' := ‹_›
    obtain ⟨ws, v, hne, hws, hv, heq⟩ := hw
    refine ⟨ws ++ [v], by simp, fun u hu ↦ ?_, by simp [dehyphen_append_hyphen, heq,
      strJoin_append_singleton hne]⟩
    rcases List.mem_append.mp hu with hu | hu
    · exact hws u hu
    · rw [List.mem_singleton.mp hu]; exact hv

/-- **Hyphenated compounds.** A hyphen match, hyphens turned into spaces, is lowercase words
joined by single spaces. -/
theorem dehyphen_of_mem_findall {s m : Str} (hm : m ∈ (hyphenPattern db).findall s) :
    ∃ ws, (∀ w ∈ ws, LowerWord w) ∧ dehyphen m = strJoin ws := by
  obtain ⟨q, next, hrun, hacc⟩ := (hyphenPattern db).run_of_mem_scan hm
  have hinv := (hyphenPattern db).run_invariant HyphenInv (fun _ _ _ _ ↦ hyphenInv_step) hrun
    (rfl : HyphenInv .start [])
  rw [List.nil_append] at hinv
  cases q with
  | laterSegment =>
    obtain ⟨ws, v, hne, hws, hv, heq⟩ := hinv
    refine ⟨ws ++ [v], fun u hu ↦ ?_, by rw [heq, strJoin_append_singleton hne]⟩
    rcases List.mem_append.mp hu with hu | hu
    · exact hws u hu
    · rw [List.mem_singleton.mp hu]; exact hv
  | _ => simp [hyphenPattern] at hacc

theorem hyphenatedTerms_normal {lineLower ct : Str} (h : ct ∈ hyphenatedTerms db lineLower) :
    strJoin (strSplit (db.lower ct)) = db.lower ct := by
  obtain ⟨m, hm, hct⟩ := List.mem_filterMap.mp h
  split_ifs at hct
  cases hct
  obtain ⟨ws, hws, heq⟩ := dehyphen_of_mem_findall hm
  rw [heq]
  exact normal_of_lowerWords hws

theorem isLetter_of_camelPattern_step {q q' : CamelState} {c : Char}
    (h : (camelPattern db).step q c = some q') : isLowerAscii c ∨ isUpperAscii c := by
  cases q <;> simp only [camelPattern] at h <;> split_ifs at h with hc <;> simp_all

/-- **CamelCase identifiers.** A CamelCase match, lowered, is one lowercase word. -/
theorem camel_normal {s m : Str} (hm : m ∈ (camelPattern db).findall s) :
    strJoin (strSplit (db.lower m)) = db.lower m := by
  obtain ⟨q, next, hrun, hacc⟩ := (camelPattern db).run_of_mem_scan hm
  have hlet := (camelPattern db).forall_mem_of_run (fun _ _ _ ↦ isLetter_of_camelPattern_step) hrun
  have hne : m ≠ [] := by
    rintro rfl
    simp only [Pattern.run, Option.some.injEq] at hrun
    subst hrun
    simp [camelPattern] at hacc
  have hlow : LowerWord (db.lower m) := by
    rw [db.lower_ascii m fun c hc ↦ ?_]
    · exact ⟨by simpa using hne, fun c hc ↦ by
        obtain ⟨d, hd, rfl⟩ := List.mem_map.mp hc
        exact isLowerAscii_toLower (hlet d hd)⟩
    · rcases hlet c hc with h | h <;>
        simp only [isLowerAscii, isUpperAscii, decide_eq_true_eq] at h <;> omega
  rw [strSplit_eq_singleton hlow.1 hlow.noSpace, strJoin_singleton]

theorem strSplit_ne_nil_of_keepTerm {term : Str} (h : keepTerm term = .ok true) :
    strSplit term ≠ [] := by
  intro hnil
  simp [keepTerm, hnil] at h

/-- The returned terms are pairwise distinct: the pool is a set. -/
theorem nodup_terms_of_process {ord : SetOrder} {text : Str} {out : Output}
    (h : process db ord text = .ok out) : (out.candidateTerms.map Prod.fst).Nodup := by
  simp only [process] at h
  split_ifs at h
  · cases h
    exact List.nodup_nil
  · rw [mergeAndRank_eq] at h
    split_ifs at h
    · cases h
    · cases h
      simp only [List.map_map, Function.comp_def, rankItems, List.map_take]
      refine List.Nodup.sublist (List.take_sublist _ _) ?_
      refine ((List.perm_insertionSort _ _).map Prod.fst).nodup_iff.mpr ?_
      refine List.Nodup.sublist ((List.filter_sublist _).map Prod.fst) ?_
      simpa [List.map_map, Function.comp_def] using SetOrder.nodup _ _

/-- **Whitespace of the returned terms.** The returned terms are pairwise distinct, each has at
least one word, and each is in whitespace-normal form `' '.join(t.split())` unless it is the
lowercase of a capitalized phrase or a quoted term of some line of the text. -/
theorem process_terms_normal_or_verbatim (db : UnicodeDb) (ord : SetOrder) (text : Str)
    (out : Output) (h : process db ord text = .ok out) :
    (out.candidateTerms.map Prod.fst).Nodup ∧
      ∀ x ∈ out.candidateTerms, strSplit x.1 ≠ [] ∧
        (strJoin (strSplit x.1) = x.1 ∨
          ∃ line ∈ strSplitLines text, ∃ ct ∈ capitalizedPhrases db line ++ quotedTerms db line,
            x.1 = db.lower ct) := by
  refine ⟨nodup_terms_of_process h, fun x hx ↦ ?_⟩
  obtain ⟨hseq, hkeep⟩ := mem_candidateSeq_of_process h hx
  refine ⟨strSplit_ne_nil_of_keepTerm hkeep, ?_⟩
  have ngram : ∀ n, x.1 ∈ extractNgramsFromParagraphs (tokenizeByParagraph db text) n →
      strJoin (strSplit x.1) = x.1 := fun n hn ↦ by
    obtain ⟨tokens, htok, i, -, hx⟩ := mem_extractNgramsFromParagraphs hn
    obtain ⟨p, -, rfl⟩ := mem_tokenizeByParagraph htok
    rw [hx, strSplit_strJoin_tokens fun tok htok ↦ List.mem_of_mem_drop (List.mem_of_mem_take htok)]
  rcases mem_candidateSeq hseq with htr | h2 | h3 | ⟨ct, hct, hx⟩
  · rw [strSplit_of_mem_tokenize (mem_tokens_of_mem_textrank htr), strJoin_singleton]
    exact .inl rfl
  · exact .inl (ngram 2 h2)
  · exact .inl (ngram 3 h3)
  · obtain ⟨line, hline, hct⟩ := List.mem_flatMap.mp hct
    simp only [lineCompounds, List.mem_append] at hct
    rw [hx]
    rcases hct with ((hct | hct) | hct) | hct
    · exact .inl (hyphenatedTerms_normal hct)
    · exact .inl (camel_normal hct)
    · exact .inr ⟨line, hline, ct, List.mem_append_left _ hct, rfl⟩
    · exact .inr ⟨line, hline, ct, List.mem_append_right _ hct, rfl⟩

/-- Two paragraphs, the bigram `zeta data` twice in the first: the one term `process` returns. -/
theorem process_zeta_data :
    process .ascii .firstSeen "zeta data zeta data\n\nthe the the the the the".toList
      = .ok ⟨true, [("zeta data".toList, 21 / 50)], ⟨10, some 3, some 0, some 0⟩⟩ := by
  with_unfolding_all decide

theorem zeta_data_normal :
    ([("zeta data".toList, (21 / 50 : ℚ))].map Prod.fst).Nodup ∧
      ∀ x ∈ [("zeta data".toList, (21 / 50 : ℚ))], strSplit x.1 ≠ [] ∧
        (strJoin (strSplit x.1) = x.1 ∨
          ∃ line ∈ strSplitLines "zeta data zeta data\n\nthe the the the the the".toList,
            ∃ ct ∈ capitalizedPhrases .ascii line ++ quotedTerms .ascii line,
              x.1 = UnicodeDb.ascii.lower ct) :=
  process_terms_normal_or_verbatim .ascii .firstSeen
    "zeta data zeta data\n\nthe the the the the the".toList
    ⟨true, [("zeta data".toList, 21 / 50)], ⟨10, some 3, some 0, some 0⟩⟩
    (by with_unfolding_all decide)

/-- A quoted span with a leading space is returned as it is written, out of normal form. -/
theorem process_quoted_leading_space :
    (process .ascii .firstSeen "the the the the the the the the the the \" q_1\"".toList).map
        Output.candidateTerms = .ok [(" q_1".toList, 0)] ∧
      strJoin (strSplit " q_1".toList) = "q_1".toList :=
  ⟨by with_unfolding_all decide, by decide⟩

end Plexus
