import LateBinding.Main
import LateBinding.Proofs.Hierarchy.Tables
import LateBinding.Proofs.Hierarchy.Bindings
import LateBinding.Proofs.Hierarchy.Rejection
import LateBinding.Proofs.Hierarchy.Warnings
import LateBinding.Proofs.Resolution.Soundness
import LateBinding.Proofs.Resolution.Composition
import LateBinding.Proofs.Resolution.SlotTable
import LateBinding.Proofs.Resolution.Selection
import LateBinding.Proofs.Resolution.Declaration
import LateBinding.Proofs.Resolution.LookupRules
import LateBinding.Proofs.Resolution.NewCandidate
import LateBinding.Proofs.Resolution.Introduction
import LateBinding.Proofs.Resolution.DirectCall
import LateBinding.Proofs.Resolution.TableLayout
import LateBinding.Proofs.Resolution.SlotChain
import LateBinding.Proofs.Resolution.Arguments
import LateBinding.Proofs.Resolution.SpecificityOrder
import LateBinding.Proofs.Execution.Steps
import LateBinding.Proofs.Execution.DepthLimit
import LateBinding.Proofs.Execution.Preorder
import LateBinding.Proofs.Execution.BodyCalls
import LateBinding.Proofs.Reordering.Scenario
import LateBinding.Proofs.Scenario.Results
import LateBinding.Proofs.Scenario.Expectation
import LateBinding.Proofs.Scenario.Json
import LateBinding.Proofs.Scenario.Document
