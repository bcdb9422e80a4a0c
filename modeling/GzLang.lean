import GzLang.Demo.Assistance
import GzLang.Demo.Component
import GzLang.Main
import GzLang.Session.Step
import GzLang.Ui.Document
import GzLang.Workload.Improvement
import GzLang.Workload.Language
import GzLang.Workload.Learning
import GzLang.Proofs.GiveBack
import GzLang.Proofs.FormulaValue
import GzLang.Proofs.Optimization
import GzLang.Proofs.Nesting
import GzLang.Proofs.Correction
import GzLang.Proofs.Compile
import GzLang.Proofs.MemoryBackends
import GzLang.Proofs.MemorySaving
import GzLang.Proofs.CollectiveCalls
import GzLang.Proofs.Ensemble
import GzLang.Proofs.OptimizerSession
import GzLang.Proofs.KnowledgeSession
import GzLang.Proofs.FeedbackSession
import GzLang.Proofs.LearnerSaving
import GzLang.Proofs.Handlers
import GzLang.Proofs.PrintArguments
import GzLang.Proofs.ExecutionHistory
import GzLang.Proofs.LiteralArithmetic
import GzLang.Proofs.ConstantFolding
import GzLang.Proofs.MemorySearch
import GzLang.Proofs.RecentExecutions
import GzLang.Proofs.BlockTree
import GzLang.Proofs.ErrorGroups
import GzLang.Proofs.ErrorSurface
import GzLang.Proofs.LineRoles
import GzLang.Proofs.Restoring
import GzLang.Proofs.SourceText
