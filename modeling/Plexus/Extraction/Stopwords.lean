import Plexus.Python.Str

/-!
# The stopword and generic-term sets

The two frozen sets of the extraction script, word for word and in the order of its source text,
repeats included (`frozenset` drops them; membership is all that is read).
-/

namespace Plexus

/-- `STOPWORDS`: common English words, filtered from tokens and from the ends of terms. -/
def stopwords : List Str := List.map String.toList [
  "a", "about", "above", "after", "again", "against", "all", "am", "an", "and", "any", "are",
  "aren't", "as", "at", "be", "because", "been", "before", "being", "below", "between", "both",
  "but", "by", "can't", "cannot", "could", "couldn't", "did", "didn't", "do", "does", "doesn't",
  "doing", "don't", "down", "during", "each", "few", "for", "from", "further", "get", "got", "had",
  "hadn't", "has", "hasn't", "have", "haven't", "having", "he", "he'd", "he'll", "he's", "her",
  "here", "here's", "hers", "herself", "him", "himself", "his", "how", "how's", "i", "i'd", "i'll",
  "i'm", "i've", "if", "in", "into", "is", "isn't", "it", "it's", "its", "itself", "let's", "me",
  "more", "most", "mustn't", "my", "myself", "no", "nor", "not", "of", "off", "on", "once", "only",
  "or", "other", "ought", "our", "ours", "ourselves", "out", "over", "own", "same", "shan't",
  "she", "she'd", "she'll", "she's", "should", "shouldn't", "so", "some", "such", "than", "that",
  "that's", "the", "their", "theirs", "them", "themselves", "then", "there", "there's", "these",
  "they", "they'd", "they'll", "they're", "they've", "this", "those", "through", "to", "too",
  "under", "until", "up", "very", "was", "wasn't", "we", "we'd", "we'll", "we're", "we've", "were",
  "weren't", "what", "what's", "when", "when's", "where", "where's", "which", "while", "who",
  "who's", "whom", "why", "why's", "will", "with", "won't", "would", "wouldn't", "you", "you'd",
  "you'll", "you're", "you've", "your", "yours", "yourself", "yourselves", "also", "just", "like",
  "even", "still", "well", "much", "however", "although", "though", "since", "within", "without",
  "between", "another", "those", "being", "been", "would", "could", "should", "might", "must",
  "shall", "may", "will", "can", "need", "using", "used", "use", "one", "two", "three", "make",
  "made", "way", "many", "how", "new", "first", "also", "back", "only", "see", "now", "well",
  "even", "get", "made", "going", "using", "used", "just", "like", "still", "take", "every",
  "much", "also"]

/-- `GENERIC_TERMS`: words common in technical writing that carry no meaning of their own. -/
def genericTerms : List Str := List.map String.toList [
  "data", "information", "system", "process", "approach", "method", "result", "example", "case",
  "point", "question", "answer", "problem", "solution", "issue", "work", "thing", "part", "type",
  "form", "kind", "sort", "area", "field", "level", "state", "point", "set", "number", "order",
  "way", "time"]

end Plexus
