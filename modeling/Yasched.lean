import Yasched.Refcount
import Yasched.Suspend
import Yasched.Kill
import Yasched.StateWord
import Yasched.Ioctl
import Yasched.Bytes
import Yasched.Execve
import Yasched.Installers
import Yasched.Inception
import Yasched.Trampoline
import Yasched.Zone
import Yasched.Quiescence
import Yasched.Registers
import Yasched.Store
import Yasched.Procfs
import Yasched.Setup
import Yasched.StoreLaws
import Yasched.Deletion
import Yasched.Slots
import Yasched.FailedExecve
import Yasched.Mirror
import Yasched.Session
import Yasched.Teardown
import Yasched.Grammar
import Yasched.Fingerprint
import Yasched.DoFork
import Yasched.SwitchDoFork
import Yasched.Epilogue
import Yasched.WaitEntries
import Yasched.Creation
import Yasched.Strings
import Yasched.Kallsyms
import Yasched.Strtol
import Yasched.Getopt
import Yasched.Admin
import Yasched.Privilege
import Yasched.Rel
import Yasched.CallSites
import Yasched.Memmem
import Yasched.ZoneLock
import Yasched.Commands
import Yasched.Names
import Yasched.Tick
import Yasched.Members
import Yasched.Simulation
import Yasched.Vectors
import Yasched.UserArgs
import Yasched.Yasub
import Yasched.Files
import Yasched.Idt
import Yasched.Progress
import Yasched.Orders
import Yasched.Effect
