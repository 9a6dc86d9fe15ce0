import Ext4.Balloc.Overhead
import Ext4.Delalloc.Release
import Ext4.Extents.Check
import Ext4.Extents.Exposure
import Ext4.Extents.InsertSpec
import Ext4.ExtentsStatus.Delayed
import Ext4.ExtentsStatus.Scan
import Ext4.Fiemap.Fill
import Ext4.Ialloc.Runs
import Ext4.Indirect.Branch
import Ext4.Indirect.Paths
import Ext4.Inode.PunchHole
import Ext4.Inode.Times
import Ext4.MapBlocks.ClusterRuns
import Ext4.Mballoc.FindExtent
import Ext4.Mballoc.OwnerRuns
import Ext4.Mballoc.PreallocWindow
import Ext4.Mballoc.TrimRuns
import Ext4.Mballoc.Words
import Ext4.Mmp.Protect
import Ext4.MoveExtent.Coverage
import Ext4.Namei.LinkRuns
import Ext4.Namei.OrphanRuns
import Ext4.Namei.RenameErrors
import Ext4.Namei.SortMap
