import SistemasOperativos.FileSystem.DirectoryLinkTheorems
import SistemasOperativos.FileSystem.DirectoryMapTheorems
import SistemasOperativos.FileSystem.DotTheorems
import SistemasOperativos.FileSystem.FileHistoryTheorems
import SistemasOperativos.FileSystem.FlatTheorems
import SistemasOperativos.FileSystem.HardLinkTheorems
import SistemasOperativos.FileSystem.IndexTheorems
import SistemasOperativos.FileSystem.IsolationTheorems
import SistemasOperativos.FileSystem.ListingTheorems
import SistemasOperativos.FileSystem.PersistenceTheorems
import SistemasOperativos.FileSystem.SizeTheorems
import SistemasOperativos.FileSystem.SparseTheorems
import SistemasOperativos.FileSystem.SymlinkTheorems
import SistemasOperativos.FileSystem.UndoTheorems
import SistemasOperativos.Fork.StdoutTheorems
import SistemasOperativos.Fork.XargsTheorems
import SistemasOperativos.Kern.IpcSendTheorems
import SistemasOperativos.Kern.PageFaultTheorems
import SistemasOperativos.Kern.PageMapTheorems
import SistemasOperativos.Kern.PriorityTheorems
import SistemasOperativos.Kern.QuantaTheorems
import SistemasOperativos.Kern.RoundRobinTheorems
import SistemasOperativos.Kern.SpinlockTheorems
import SistemasOperativos.Kern.StatsTheorems
import SistemasOperativos.Kern.UserMemTheorems
import SistemasOperativos.Shell.EnvironTheorems
import SistemasOperativos.Shell.RedirTheorems
import SistemasOperativos.Shell.SessionTheorems
import SistemasOperativos.Shell.ExecTheorems
import SistemasOperativos.UserLib.PfentryTheorems
import SistemasOperativos.UserLib.ReadOnlyTheorems
import SistemasOperativos.Kern.LoaderTheorems
import SistemasOperativos.Kern.BootTheorems
import SistemasOperativos.Kern.ConsoleTheorems
import SistemasOperativos.UserLib.StringLibTheorems
