import Arunos.Lib.Math
import Arunos.Lib.Gets
import Arunos.Lib.Printf
import Arunos.Monitor.Command
import Arunos.Monitor.Debug
import Arunos.Fs.Areas
import Arunos.Fs.Complete
import Arunos.Fs.Listing
import Arunos.Fs.Directory
import Arunos.Memory.Contract
import Arunos.Memory.Mapping
import Arunos.Machine.Waiting
import Arunos.Machine.Resume
import Arunos.Machine.Simulation
import Arunos.Machine.Noninterference
import Arunos.Machine.Families
import Arunos.Machine.Sessions
import Arunos.Machine.Storage
import Arunos.Machine.Terminal
import Arunos.Console.Putch
import Arunos.Proc.Fair
import Arunos.Proc.Image
import Arunos.Arch.Requests
import Arunos.Machine.Startup
