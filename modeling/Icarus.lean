import Icarus.Vvp.Schedule.Correct
import Icarus.Vvp.Resolv.Order
import Icarus.Verinum.Division
import Icarus.Vvp.Delay.Inertial
import Icarus.Vvp.Delay.ModpathBits
import Icarus.Vvp.Event.Settle
import Icarus.Vvp.Thread.Assertions
import Icarus.Vvp.Thread.Mod
import Icarus.Vvp.Udp.Run
import Icarus.Vvp.Symbols.Find
import Icarus.FuncEval.Functions
import Icarus.Ivlpp.PrecompiledTables
import Icarus.Vvp.Array.Ports
import Icarus.Ivlpp.Actuals
import Icarus.Netmisc.SliceSelect
import Icarus.Vvp.PowerFold
import Icarus.Vvp.Planes.Multiply
import Icarus.Synth.Tree
import Icarus.Vpi.Readmem
import Icarus.Vvp.Delay.Candidates
import Icarus.Vvp.Delay.Intermodpath
import Icarus.Vvp.Planes.Reduce4
import Icarus.Vvp.Event.EvctlRuns
import Icarus.Vvp.Part.PartVar
import Icarus.Vvp.Thread.ForcePart
import Icarus.Vvp.Darray.LoadStore
import Icarus.Vvp.Darray.Locator
import Icarus.Vvp.Darray.Queue
import Icarus.Vvp.Net.Fanout
import Icarus.Netmisc.EvalAdd
import Icarus.Verinum.FromReal
import Icarus.Vvp.Callback.Kept
import Icarus.Vvp.Island.Ends
import Icarus.Vvp.Vpip.Numerals
import Icarus.Ivlpp.ArgSplit
import Icarus.Netlist.DrivenRuns
import Icarus.Netlist.NexusCalls
import Icarus.Netmisc.Bufz
import Icarus.TgtVvp.Literal
import Icarus.Vpi.Queue.Runs
import Icarus.Vvp.Thread.TrialDigit
import Icarus.Vvp.Net.Gates
