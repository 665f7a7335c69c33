import Plexus.Python.Str
import Plexus.Python.Regex
import Plexus.Python.Collections
import Plexus.Extraction.Stopwords
import Plexus.Extraction.Tokenize
import Plexus.Extraction.Compound
import Plexus.Extraction.TextRank
import Plexus.Extraction.RankModel
import Plexus.Extraction.RankMass
import Plexus.Extraction.Fusion
import Plexus.Extraction.FusionOrder
import Plexus.Extraction.Candidates
import Plexus.Graph.Export
import Plexus.Graph.PageRank
import Plexus.Graph.Communities
import Plexus.Content.Chunks
import Plexus.Extraction.Cooccur
import Plexus.Graph.CommunitiesStable
import Plexus.Graph.PageRankExport
import Plexus.Graph.PageRankConverge
import Plexus.Content.Sections
import Plexus.Extraction.Ranked
import Plexus.Extraction.Boost
import Plexus.Extraction.Guards
import Plexus.Extraction.Failure
import Plexus.Extraction.Tokens
import Plexus.Script.Entry
