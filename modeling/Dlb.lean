import Dlb.Rbt.Summary
import Dlb.Rbt.Range
import Dlb.Rbt.Walk
import Dlb.Rbt.Nearest
import Dlb.Rbt.Logarithmic
import Dlb.Bint.Atomic
import Dlb.Bint.Order
import Dlb.Bint.Difference
import Dlb.Bint.Power
import Dlb.Bint.Inverse
import Dlb.Bint.Pointwise
import Dlb.Bint.Account
import Dlb.Bint.Integers
import Dlb.Cbuf.Queue
import Dlb.Ioq.Finished
import Dlb.Ioq.Contract
import Dlb.Arena.Garbage
import Dlb.Arena.Realloc
import Dlb.Arena.Count
import Dlb.Hash.Run
import Dlb.Slab.FreeAll
import Dlb.ListNode.Refine
import Dlb.Slist.Run
import Dlb.Istr.Compare
import Dlb.Strbuf.Concat
import Dlb.Strlcpy
import Dlb.Bytes
import Dlb.Vector.Elements
import Dlb.Runq.Awake
import Dlb.Runq.Served
import Dlb.Thr.Event
import Dlb.Waitq.Clock
import Dlb.Mailbox.Armed
import Dlb.Mailbox.Wait
import Dlb.Asock.Once
import Dlb.Afile.Served
import Dlb.Afile.Apart
import Dlb.Adns.Cancelled
import Dlb.Adns.Served
import Dlb.Lifetime
import Dlb.Windows.Promise
