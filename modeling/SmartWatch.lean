import SmartWatch.Lib.Runs
import SmartWatch.Lib.Civil
import SmartWatch.Proofs.SpiSend
import SmartWatch.Proofs.Buttons
import SmartWatch.Proofs.Save
import SmartWatch.Proofs.Editing
import SmartWatch.Proofs.TimeKeeping
import SmartWatch.Proofs.TextCut
import SmartWatch.Proofs.DateLine
import SmartWatch.Proofs.Panel
import SmartWatch.Proofs.Rectangle
import SmartWatch.Proofs.Spi
import SmartWatch.Proofs.Highlight
import SmartWatch.Proofs.DisplayThread
import SmartWatch.Proofs.SerialThread
import SmartWatch.Proofs.I2c
import SmartWatch.Proofs.Theme
import SmartWatch.Proofs.Face
import SmartWatch.Proofs.Pedometer
import SmartWatch.Proofs.Battery
import SmartWatch.Proofs.Buffers
import SmartWatch.Proofs.LostWeekday
import SmartWatch.Proofs.Timers
import SmartWatch.Proofs.Fairness
import SmartWatch.Proofs.MessageQueues
import SmartWatch.Proofs.HeapRuns
