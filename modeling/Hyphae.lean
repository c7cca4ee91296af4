import Hyphae.BTree.NodeParsers
import Hyphae.BTree.Session
import Hyphae.BTree.ReadersAgree
import Hyphae.BTree.Inspect
import Hyphae.BTree.Division
import Hyphae.Access.SelfIssue
import Hyphae.Blobs.Durability
import Hyphae.Search.Fuzzy
import Hyphae.Search.Like
import Hyphae.Relational.IntegrityRuns
import Hyphae.Scheduler.Progress
import Hyphae.Runtime.ConflictReplay
import Hyphae.Runtime.CrashRecovery
import Hyphae.Types.Descriptor
import Hyphae.Governor.Fairness
