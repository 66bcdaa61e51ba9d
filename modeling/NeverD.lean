import NeverD.Sat.FirstUip
import NeverD.Explore.Bound
import NeverD.Sym.KnownRuns
import NeverD.Sym.EvalSlots
import NeverD.Emulation.Partition
import NeverD.Emulation.Runs
import NeverD.Sbf.Coverage
import NeverD.Sbf.Fuel
import NeverD.Sbf.Invariants
import NeverD.Sbf.Agreement
import NeverD.Evm.Trailer
import NeverD.Evm.AbiGrammar
import NeverD.Evm.Blocks
import NeverD.Evm.ClassifierHistory
import NeverD.Mba.ResidueFold
import NeverD.Mba.Cofactor
import NeverD.Mba.AgreementVerdict
import NeverD.Support.SHA256
import NeverD.Sbf.Pubkey
import NeverD.Sbf.Ownership
import NeverD.Ir.ConstantSoundness
import NeverD.Ir.AffineFrameTraces
import NeverD.Ir.RegisterGraph
import NeverD.Ir.CircleRange
import NeverD.Ir.MedDceExact
import NeverD.Emulation.WatchCache
import NeverD.Bv.Divider
import NeverD.Bv.Multiplier
import NeverD.Bv.PermanentConjuncts
import NeverD.Sat.Restarts
import NeverD.Sbf.HighMultiply
import NeverD.Sym.Recovery
import NeverD.Bv.NodeOrder
import NeverD.Support.SortedSearch
