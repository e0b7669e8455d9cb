import EmacsDir.TableRows
import EmacsDir.TablePercent
import EmacsDir.TableFrame
import EmacsDir.TableCells
import EmacsDir.FileName
import EmacsDir.OpenFile
import EmacsDir.PathStages
import EmacsDir.PathLine
import EmacsDir.PathAgree
import EmacsDir.PathExisting
import EmacsDir.DeleteLine
import EmacsDir.MouseSelection
import EmacsDir.Runs
import EmacsDir.Speedbar
import EmacsDir.SpeedbarLaws
import EmacsDir.SpeedbarTick
import EmacsDir.SpeedbarView
import EmacsDir.SavedListings
import EmacsDir.SpeedbarRuns
import EmacsDir.SpeedbarStale
import EmacsDir.SpeedbarRetry
import EmacsDir.SpeedbarFolds
import EmacsDir.SpeedbarExpansion
import EmacsDir.FoldedListings
import EmacsDir.SpeedbarToggle
import EmacsDir.Focus
import EmacsDir.Obarray
import EmacsDir.Tabset
import EmacsDir.AwesomeTab
import EmacsDir.TabGroups
import EmacsDir.TabRuns
import EmacsDir.TabCache
import EmacsDir.TabCycle
import EmacsDir.TabKill
import EmacsDir.TabInit
import EmacsDir.AceJump
import EmacsDir.SpeedbarWindow
import EmacsDir.SpeedbarFrame
import EmacsDir.SpeedbarLifecycle
import EmacsDir.SpeedbarSidebar
