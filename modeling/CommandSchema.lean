import CommandSchema.Batch
import CommandSchema.Main
import CommandSchema.Program
import CommandSchema.Proofs.Ancestors
import CommandSchema.Proofs.Batch
import CommandSchema.Proofs.CodeUnits
import CommandSchema.Proofs.Comments
import CommandSchema.Proofs.Contract.Agreement
import CommandSchema.Proofs.Contract.Classes
import CommandSchema.Proofs.Contract.Extraction
import CommandSchema.Proofs.Contract.Strictness
import CommandSchema.Proofs.DeclarationStyles
import CommandSchema.Proofs.FactoryCalls
import CommandSchema.Proofs.Int32Names
import CommandSchema.Proofs.Json.Records
import CommandSchema.Proofs.OwnerForms
import CommandSchema.Proofs.Reachability
import CommandSchema.Proofs.Selections
import CommandSchema.Proofs.Settings
import CommandSchema.Proofs.Spelling
import CommandSchema.Proofs.Syntax.Copies
import CommandSchema.Proofs.Typing.CallSignatures
import CommandSchema.Proofs.Typing.Copies
import CommandSchema.Proofs.Typing.Denotation
import CommandSchema.Proofs.Typing.FirstVisits
import CommandSchema.Proofs.Typing.Inheritance
import CommandSchema.Proofs.Typing.Mentions
import CommandSchema.Proofs.Typing.NearestLevel
import CommandSchema.Proofs.Typing.Rewriting
import CommandSchema.Proofs.Typing.RewrittenModel
import CommandSchema.Proofs.Typing.Simulation
import CommandSchema.Proofs.Typing.StepBound
import CommandSchema.Proofs.Typing.TopLevel
import CommandSchema.Proofs.Yaml.Block
import CommandSchema.Typing.MemoryModel
import CommandSchema.Proofs.Typing.Completion
import CommandSchema.Proofs.Typing.Unions
import CommandSchema.Proofs.Typing.QuotedTexts
