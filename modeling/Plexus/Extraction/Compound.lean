import Plexus.Extraction.Tokenize

/-!
# Compound terms

`extract_compound_terms` of the extraction script: four patterns run over each line of the text,
lowercased for the hyphen pattern and as written for the other three.

* hyphenated compounds, `\b([a-z]+-[a-z]+(?:-[a-z]+)*)\b`, kept when longer than five characters
  and not led by a stopword, with their hyphens turned into spaces;
* CamelCase identifiers, `\b([A-Z][a-z]+(?:[A-Z][a-z]+)+)\b`, verbatim;
* capitalized phrases, `(?<=[.!?\s])([A-Z][a-z]+(?:\s+[A-Z][a-z]+)+)(?=[,.\s])`, of at most four
  words not all stopwords, verbatim, whitespace included;
* quoted spans, `"([^"]{3,40})"`, not opening with a digit and of at most five words, verbatim.

The lines are the pieces of `text.split('\n')`, so no pattern sees two lines at once.
-/

namespace Plexus

variable (db : UnicodeDb)

/-! ## Hyphenated compounds -/

/-- Where a scan of `[a-z]+-[a-z]+(?:-[a-z]+)*` stands. -/
inductive HyphenState
  | start
  | firstSegment
  | afterHyphen
  | laterSegment
  deriving DecidableEq

/-- `\b([a-z]+-[a-z]+(?:-[a-z]+)*)\b`: letters joined by single hyphens, at least one hyphen, at
word boundaries. -/
def hyphenPattern : Pattern HyphenState where
  behind prev := !prev.any db.isWord
  start := .start
  step
    | .start, c => if isLowerAscii c then some .firstSegment else none
    | .firstSegment, c =>
      if isLowerAscii c then some .firstSegment else if c = '-' then some .afterHyphen else none
    | .afterHyphen, c => if isLowerAscii c then some .laterSegment else none
    | .laterSegment, c =>
      if isLowerAscii c then some .laterSegment else if c = '-' then some .afterHyphen else none
  accept
    | .laterSegment, next => !next.any db.isWord
    | _, _ => false

/-! ## CamelCase identifiers -/

/-- Where a scan of `[A-Z][a-z]+(?:[A-Z][a-z]+)+` stands. -/
inductive CamelState
  | start
  | firstUpper
  | firstHump
  | nextUpper
  | laterHump
  deriving DecidableEq

/-- `\b([A-Z][a-z]+(?:[A-Z][a-z]+)+)\b`: two or more capitalized humps at word boundaries. -/
def camelPattern : Pattern CamelState where
  behind prev := !prev.any db.isWord
  start := .start
  step
    | .start, c => if isUpperAscii c then some .firstUpper else none
    | .firstUpper, c => if isLowerAscii c then some .firstHump else none
    | .firstHump, c =>
      if isLowerAscii c then some .firstHump else if isUpperAscii c then some .nextUpper else none
    | .nextUpper, c => if isLowerAscii c then some .laterHump else none
    | .laterHump, c =>
      if isLowerAscii c then some .laterHump else if isUpperAscii c then some .nextUpper else none
  accept
    | .laterHump, next => !next.any db.isWord
    | _, _ => false

/-! ## Capitalized phrases -/

/-- Where a scan of `[A-Z][a-z]+(?:\s+[A-Z][a-z]+)+` stands. -/
inductive PhraseState
  | start
  | firstUpper
  | firstWord
  | gap
  | nextUpper
  | laterWord
  deriving DecidableEq

/-- `(?<=[.!?\s])([A-Z][a-z]+(?:\s+[A-Z][a-z]+)+)(?=[,.\s])`: two or more capitalized words
separated by whitespace, after a sentence mark or whitespace and before a comma, a period or
whitespace. -/
def phrasePattern : Pattern PhraseState where
  behind prev := prev.any fun c ↦ c = '.' || c = '!' || c = '?' || isSpace c
  start := .start
  step
    | .start, c => if isUpperAscii c then some .firstUpper else none
    | .firstUpper, c => if isLowerAscii c then some .firstWord else none
    | .firstWord, c =>
      if isLowerAscii c then some .firstWord else if isSpace c then some .gap else none
    | .gap, c => if isSpace c then some .gap else if isUpperAscii c then some .nextUpper else none
    | .nextUpper, c => if isLowerAscii c then some .laterWord else none
    | .laterWord, c =>
      if isLowerAscii c then some .laterWord else if isSpace c then some .gap else none
  accept
    | .laterWord, next => next.any fun c ↦ c = ',' || c = '.' || isSpace c
    | _, _ => false

/-! ## Quoted terms -/

/-- Where a scan of `"[^"]{3,40}"` stands: before the opening quote, inside after `n`
characters, or past the closing quote after `n`. -/
inductive QuoteState
  | start
  | inside (n : ℕ)
  | closed (n : ℕ)
  deriving DecidableEq

/-- `"([^"]{3,40})"`. -/
def quotePattern : Pattern QuoteState where
  behind _ := true
  start := .start
  step
    | .start, c => if c = '"' then some (.inside 0) else none
    | .inside n, c =>
      if c = '"' then some (.closed n) else if n < 40 then some (.inside (n + 1)) else none
    | .closed _, _ => none
  accept
    | .closed n, _ => decide (3 ≤ n)
    | _, _ => false

/-! ## Extraction -/

/-- `term.replace('-', ' ')`. -/
def dehyphen (term : Str) : Str := term.map fun c ↦ if c = '-' then ' ' else c

/-- The hyphenated compounds of one lowercased line, hyphens turned into spaces. -/
def hyphenatedTerms (lineLower : Str) : List Str :=
  ((hyphenPattern db).findall lineLower).filterMap fun term ↦
    if 5 < term.length && (term.splitOn '-').headD [] ∉ stopwords then
      some (dehyphen term)
    else none

/-- The capitalized phrases of one line: at most four words, not all of them stopwords. -/
def capitalizedPhrases (line : Str) : List Str :=
  (phrasePattern.findall line).filter fun phrase ↦
    let words := strSplit phrase
    words.length ≤ 4 && !words.all (db.lower · ∈ stopwords)

/-- The quoted terms of one line: the text between the quotes, not opening with a digit and of at
most five words. -/
def quotedTerms (line : Str) : List Str :=
  (quotePattern.findall line).filterMap fun span ↦
    let term := (span.drop 1).dropLast
    if !term.head?.any db.isDigit && (strSplit term).length ≤ 5 then some term else none

/-- The compound terms of one line, in the order the script appends them. -/
def lineCompounds (line : Str) : List Str :=
  hyphenatedTerms db (db.lower line) ++ (camelPattern db).findall line ++
    capitalizedPhrases db line ++ quotedTerms db line

/-- `extract_compound_terms(text)`. -/
def extractCompoundTerms (text : Str) : List Str :=
  (strSplitLines text).flatMap (lineCompounds db)

end Plexus
