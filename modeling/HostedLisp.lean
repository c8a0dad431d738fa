import HostedLisp.Code.Compare
import HostedLisp.Compiler.Part
import HostedLisp.Lock.Run
import HostedLisp.Main
import HostedLisp.Proofs.Coll.HashMapErase
import HostedLisp.Proofs.Collections
import HostedLisp.Proofs.Compiler.Visible
import HostedLisp.Proofs.Compiler.StackBalance
import HostedLisp.Proofs.Equivalence
import HostedLisp.Proofs.Lock.Calls
import HostedLisp.Proofs.Reader.Progress
import HostedLisp.Proofs.Reader.RoundTrip
import HostedLisp.Proofs.Session.SharedSet
import HostedLisp.Proofs.Session.Swaps
import HostedLisp.Proofs.Slices
import HostedLisp.Proofs.SortedBalance
import HostedLisp.Proofs.Stm.AllOrNothing
import HostedLisp.Proofs.Stm.Isolation
import HostedLisp.Proofs.Stm.Ring
import HostedLisp.Workload
