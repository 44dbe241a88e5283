import LensLM.Lib.ByteText
import LensLM.Lib.Whitespace
import LensLM.Lib.Spans
import LensLM.Lib.Outcome
import LensLM.Block
import LensLM.Chunk
import LensLM.ChunkSplit
import LensLM.ChunkParents
import LensLM.ChunkChildren
import LensLM.ChunkHierarchy
import LensLM.Lib.Outline
import LensLM.SectionPath
import LensLM.Section
import LensLM.Markdown
import LensLM.MarkdownDoc
import LensLM.MarkdownBlocks
import LensLM.MarkdownTexts
import LensLM.ParseText
import LensLM.ChunkTokens
import LensLM.Lib.Programs
import LensLM.Lib.Fields
import LensLM.VectorStore
import LensLM.Lib.Grouping
import LensLM.Lib.LinkForest
import LensLM.UnionFind
import LensLM.NodeConfidences
import LensLM.Lib.Effects
import LensLM.Resolution
import LensLM.ResolutionGroups
import LensLM.Error
import LensLM.Lib.Ranking
import LensLM.DenseSearch
import LensLM.Retrieval
import LensLM.Router
import LensLM.RouterUnits
import LensLM.Citation
import LensLM.Anchors
import LensLM.Lib.JsonText
import LensLM.Lib.JsonScan
import LensLM.Dialogue
import LensLM.DialogueClean
import LensLM.DialogueTurns
import LensLM.DialogueReader
import LensLM.Engine
import LensLM.VectorTables
import LensLM.Ingest
import LensLM.Reembed
import LensLM.OrphanSweep
import LensLM.OrphanSweepJobs
import LensLM.TypedVeto
import LensLM.EntityGraph
import LensLM.EntityGraphRows
import LensLM.Relations
import LensLM.LlmBudget
import LensLM.LlmBudgetBound
import LensLM.EnrichmentWorker
import LensLM.EnrichmentStatuses
import LensLM.EnrichmentJobs
import LensLM.Settings
import LensLM.Lib.PathText
import LensLM.Library
import LensLM.SettingsRestart
import LensLM.Lib.Executions
import LensLM.Purge
import LensLM.PurgeRefused
import LensLM.PurgeFiles
import LensLM.Lib.LineWriter
import LensLM.ExtractWriter
import LensLM.ExtractMarkup
import LensLM.ExtractRecords
import LensLM.ExtractPdf
import LensLM.Extractors
import LensLM.Lib.Recovery
import LensLM.TableRegistry
import LensLM.TableRegistryRuns
import LensLM.CancelRegistries
import LensLM.DownloadRegistry
import LensLM.Transcribe
import LensLM.TranscribeCancel
import LensLM.TranscribeTranslate
import LensLM.FenceRedactor
import LensLM.AnswerPrompt
import LensLM.AnswerStream
import LensLM.AnswerGrammar
import LensLM.ConfigCommands
import LensLM.Overview
import LensLM.OverviewRuns
import LensLM.Relocation
import LensLM.RelocationHistory
import LensLM.RelocationGuard
import LensLM.Providers
import LensLM.CloudConsent
import LensLM.Lib.Cutting
import LensLM.RedactorRuns
import LensLM.RedactorSplits
import LensLM.CitationsShown
import LensLM.JsonAnchors
import LensLM.YamlStreams
import LensLM.RtfPrePass
import LensLM.RtfTokens
import LensLM.StoredPaths
import LensLM.Downloads
import LensLM.DownloadRuns
import LensLM.DownloadsIntact
import LensLM.Lib.TextLayout
import LensLM.Lib.EventRuns
import LensLM.DropTargets
import LensLM.DocxText
import LensLM.PdfTextLayer
import LensLM.XmlSpelling
import LensLM.CitationChips
import LensLM.ChipRestore
import LensLM.ConfigSnapshot
import LensLM.AudioOverview
import LensLM.Lib.Slots
import LensLM.NotesStore
import LensLM.SourcesStore
import LensLM.Lib.Packing
import LensLM.SceneChunks
import LensLM.PromptFit
import LensLM.ChatHistory
import LensLM.CloudWindows
import LensLM.Lib.BlockFeed
import LensLM.AudioWindows
import LensLM.Lib.Fts5
import LensLM.LexicalSearch
import LensLM.Shortcuts
import LensLM.RouterOrder
import LensLM.RankFusion
import LensLM.PageRank
import LensLM.SpeechCodes
import LensLM.TableMarkdown
import LensLM.PdfOutline
import LensLM.XmlDepth
import LensLM.StructuralQuery
import LensLM.QwenTurns
import LensLM.Lib.Utf8
import LensLM.Lib.Boundaries
import LensLM.CitationSource
import LensLM.JsonlSniff
import LensLM.SsrfGuard
import LensLM.Lib.Runs
import LensLM.ParagraphRuns
import LensLM.Lib.Tiling
import LensLM.ChunkTiles
import LensLM.Lib.JsonBytes
import LensLM.TrailingCommas
import LensLM.BalancedExtract
import LensLM.Lib.Edits
import LensLM.Coref
import LensLM.Lib.CaseMapping
import LensLM.MentionOffsets
import LensLM.Lib.Words
import LensLM.NormalizeName
import LensLM.AdjudicationKey
import LensLM.SessionSpend
import LensLM.Lib.Batches
import LensLM.TextBatches
import LensLM.StructuralMaps
import LensLM.EmbeddingText
import LensLM.SplitProgress
import LensLM.CacheKey
import LensLM.ExtractedBufferRuns
import LensLM.IngestCrash
import LensLM.IngestLock
import LensLM.TieredSearch
import LensLM.SearchGrounding
import LensLM.PrepareCoordinator
import LensLM.FencedPrompts
import LensLM.EngineLocks
