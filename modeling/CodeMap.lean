import CodeMap.CommandLine.Run
import CodeMap.Excerpt
import CodeMap.FileSystem.Change
import CodeMap.Ingest
import CodeMap.Main
import CodeMap.Outline
import CodeMap.Proofs.CodeGraph.Positions
import CodeMap.Proofs.Ingest.Integrity
import CodeMap.Proofs.Ingest.Replacement
import CodeMap.Proofs.Persist.Rounds
import CodeMap.Proofs.Persist.Unhindered
import CodeMap.Proofs.Store.Calls
import CodeMap.Proofs.Store.Rows
import CodeMap.RepoMap
import CodeMap.Sql.Database
import CodeMap.Store.Archive
import CodeMap.Store.Service
import CodeMap.Tag
import CodeMap.Traversal
import CodeMap.Walk
import CodeMap.Proofs.RepoMap.Budget
import CodeMap.Proofs.RepoMap.History
import CodeMap.Proofs.Store.Isolation
import CodeMap.Proofs.CodeGraph.Names
import CodeMap.Proofs.Ingest.Keys
import CodeMap.Proofs.CodeGraph.FileOrder
import CodeMap.Proofs.Store.Fidelity
import CodeMap.Proofs.Traversal.Rows
import CodeMap.Proofs.Traversal.EntryPoints
import CodeMap.Proofs.Traversal.CodeTree
import CodeMap.Proofs.CodeGraph.Contents
import CodeMap.Proofs.FileGraph.Links
import CodeMap.Proofs.FileGraph.TagOrder
import CodeMap.Proofs.PageRank.Iteration
import CodeMap.Proofs.PageRank.Definedness
import CodeMap.Proofs.PageRank.Mass
import CodeMap.Proofs.PageRank.Convergence
import CodeMap.Proofs.PageRank.Totals
import CodeMap.Proofs.FileGraph.Scores
import CodeMap.Proofs.Budget.Search
import CodeMap.Proofs.Excerpt.Scopes
import CodeMap.Proofs.Excerpt.Growth
import CodeMap.Proofs.Outline.Growth
import CodeMap.Proofs.Excerpt.Elision
import CodeMap.Proofs.Excerpt.Gaps
import CodeMap.Proofs.Outline.Sections
import CodeMap.Proofs.RepoMap.Requests
import CodeMap.Proofs.RepoMap.Usability
import CodeMap.Proofs.CodeGraph.Nesting
import CodeMap.Proofs.Ingest.Provenance
import CodeMap.Proofs.Traversal.Neighbours
import CodeMap.Proofs.Store.Statements
import CodeMap.Proofs.Store.Subtree
import CodeMap.Proofs.Persist.BatchSize
import CodeMap.Proofs.CodeGraph.Locality
import CodeMap.Proofs.CodeGraph.Locating
import CodeMap.Proofs.Identifiers.Tokens
import CodeMap.Proofs.Identifiers.WholeWords
import CodeMap.Proofs.CodeGraph.Scoping
