import QuantumSim.Scalar
import QuantumSim.Amplitude
import QuantumSim.Decimal.Binary64
import QuantumSim.Decimal.Text
import QuantumSim.Dict
import QuantumSim.Json
import QuantumSim.Json.Reader
import QuantumSim.Json.Writer
import QuantumSim.Fault
import QuantumSim.Wire
import QuantumSim.Parameter
import QuantumSim.Gate.Symbol
import QuantumSim.Gate
import QuantumSim.Instruction
import QuantumSim.Circuit.Error
import QuantumSim.Circuit
import QuantumSim.Circuit.Builder
import QuantumSim.Circuit.Analysis
import QuantumSim.Circuit.Family
import QuantumSim.Observable
import QuantumSim.Job
import QuantumSim.Backend.Error
import QuantumSim.Request
import QuantumSim.Counts
import QuantumSim.Result
import QuantumSim.Capabilities
import QuantumSim.Operator
import QuantumSim.Kernel
import QuantumSim.Random.Stream
import QuantumSim.Random.Weighted
import QuantumSim.State.Error
import QuantumSim.State
import QuantumSim.State.Readout
import QuantumSim.State.Measurement
import QuantumSim.Program
import QuantumSim.Sampling
import QuantumSim.Engine
import QuantumSim.JobTable
import QuantumSim.Backend
import QuantumSim.Backend.Scripted
import QuantumSim.Registry
import QuantumSim.Simulator.Config
import QuantumSim.Simulator
import QuantumSim.Codec.Circuit
import QuantumSim.Codec.Request
import QuantumSim.Codec.Result
import QuantumSim.Codec.Capabilities
import QuantumSim.Proofs.Outcome
import QuantumSim.Proofs.Basis
import QuantumSim.Proofs.GateNames
import QuantumSim.Proofs.GateTables
import QuantumSim.Proofs.Exact
import QuantumSim.Proofs.Validation
import QuantumSim.Proofs.Selection
import QuantumSim.Proofs.Kernel
import QuantumSim.Proofs.Lowering
import QuantumSim.Proofs.Application
import QuantumSim.Proofs.ControlledOperator
import QuantumSim.Proofs.GateMatrices
import QuantumSim.Proofs.NearIsometry
import QuantumSim.Proofs.Isometry
import QuantumSim.Proofs.Readout
import QuantumSim.Proofs.ExactReadout
import QuantumSim.Proofs.Distinct
import QuantumSim.Proofs.Compilation
import QuantumSim.Proofs.Evolution
import QuantumSim.Proofs.Branching
import QuantumSim.Proofs.DeferredMeasurement
import QuantumSim.Proofs.Robustness
import QuantumSim.Proofs.Binding
import QuantumSim.Proofs.BindingLaws
import QuantumSim.Proofs.Acceptance
import QuantumSim.Proofs.CircuitDepth
import QuantumSim.Proofs.Execution
import QuantumSim.Proofs.Expectation
import QuantumSim.Proofs.ObservableRange
import QuantumSim.Proofs.Dict
import QuantumSim.Proofs.JobEvents
import QuantumSim.Proofs.JobTable
import QuantumSim.Proofs.SimulatorOperations
import QuantumSim.Proofs.JobLifecycle
import QuantumSim.Proofs.NormPreservation
import QuantumSim.Proofs.Counts
import QuantumSim.Proofs.Drawing
import QuantumSim.Proofs.SampledReadout
import QuantumSim.Proofs.WeightedDraws
import QuantumSim.Proofs.SampledExecution
import QuantumSim.Proofs.Building
import QuantumSim.Proofs.Composition
import QuantumSim.Proofs.JobHistory
import QuantumSim.Proofs.JobRetention
import QuantumSim.Proofs.Waiting
import QuantumSim.Proofs.Replay
import QuantumSim.Proofs.RegisterReadout
import QuantumSim.Proofs.PhaseGates
import QuantumSim.Proofs.PauliOperators
import QuantumSim.Proofs.PrefixSharing
import QuantumSim.Proofs.Projection
import QuantumSim.Proofs.NormTolerance
import QuantumSim.Proofs.UnitarityTolerance
import QuantumSim.Proofs.Documents
import QuantumSim.Proofs.JobDocuments
import QuantumSim.Proofs.JobOutcome
import QuantumSim.Proofs.BatchExecution
import QuantumSim.Proofs.BitReversal
import QuantumSim.Proofs.GateActions
import QuantumSim.Proofs.FourierCircuit
import QuantumSim.Proofs.FourierTransform
import QuantumSim.Proofs.PauliRotations
import QuantumSim.Proofs.CoherentReadout
import QuantumSim.Proofs.Passes
import QuantumSim.Proofs.CatCircuit
import QuantumSim.Proofs.CatStates
import QuantumSim.Proofs.CatSampling
import QuantumSim.Proofs.FourierLayout
import QuantumSim.Proofs.ControlForms
import QuantumSim.Proofs.InPlace
import QuantumSim.Proofs.WorkUnits
import QuantumSim.Proofs.KernelUnits
import QuantumSim.Proofs.DividedWork
import QuantumSim.Proofs.Divisions
import QuantumSim.Proofs.ShotPrefixes
import QuantumSim.Proofs.Annotations
import QuantumSim.Proofs.TableFrame
import QuantumSim.Proofs.TableCalls
import QuantumSim.Proofs.Workers
import QuantumSim.Proofs.Polling
