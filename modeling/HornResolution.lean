import HornResolution.Interpretation
import HornResolution.Json.Model
import HornResolution.Json.View
import HornResolution.Lexicon
import HornResolution.Proofs.Soundness
import HornResolution.Proofs.Completeness
import HornResolution.Proofs.ObtainableBindings
import HornResolution.Proofs.Abandonment
import HornResolution.Proofs.Allocation
import HornResolution.Proofs.Hygiene
import HornResolution.Proofs.Relabelling
import HornResolution.Proofs.Interleaving
import HornResolution.Proofs.HeadForms
import HornResolution.Proofs.AliasClasses
import HornResolution.Proofs.Commutativity
import HornResolution.Proofs.Lockstep
import HornResolution.Proofs.RuleVariables
import HornResolution.Proofs.Rebuilding
import HornResolution.Proofs.EagerSubstitution
import HornResolution.Proofs.InstantiatedGoals
import HornResolution.Proofs.CallDepth
import HornResolution.Proofs.Permanence
import HornResolution.Proofs.Delivery
import HornResolution.Proofs.ErrorFreedom
import HornResolution.Proofs.RuleOrder
import HornResolution.Proofs.Grouping
import HornResolution.Proofs.ParentBindings
import HornResolution.Proofs.VocabularyTables
import HornResolution.Proofs.DerivationTrees
import HornResolution.Proofs.MutualInstances
import HornResolution.Proofs.Findings
import HornResolution.Proofs.ConjunctOrder
import HornResolution.Proofs.Unifiers
import HornResolution.Proofs.UnboundedRecursion
import HornResolution.Proofs.NonrecursivePrograms
import HornResolution.Proofs.SolvedEquations
import HornResolution.Proofs.EquationSystems
import HornResolution.Proofs.SharedParts
import HornResolution.Proofs.ExtensionOrder
import HornResolution.Proofs.Absorption
import HornResolution.Proofs.Groundness
import HornResolution.Proofs.FreshCopies
import HornResolution.Proofs.AnswerBindings
import HornResolution.Proofs.StoredForm
import HornResolution.Proofs.MadeUpNames
import HornResolution.Proofs.LexiconTables
import HornResolution.Proofs.UnambiguousText
import HornResolution.Proofs.OccursCheck
import HornResolution.Proofs.ChainEnds
