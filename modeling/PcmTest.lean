import PcmTest.Kvmclock.Callers
import PcmTest.Kvmclock.History
import PcmTest.Kvmclock.Leftovers
import PcmTest.Kvmclock.Progress
import PcmTest.Kvmclock.RetryLoops
import PcmTest.Kvmclock.Stalls
import PcmTest.Kvmclock.SwapLoop
import PcmTest.Kvmclock.Wallclock
import PcmTest.Driver.Brackets
import PcmTest.Driver.Dispatch
import PcmTest.Driver.FocusSerial
import PcmTest.Driver.Load
import PcmTest.Driver.Msr
import PcmTest.Driver.MsrHistory
import PcmTest.Driver.SetjmpLoop
import PcmTest.Driver.TscAdjust
import PcmTest.Driver.Window
import PcmTest.TestModule.Sessions
import PcmTest.Kvmclock.Registration
import PcmTest.Ioapic.Entries
import PcmTest.Ioapic.Preempted
import PcmTest.Ioapic.Retrigger
import PcmTest.Ioapic.Gates
import PcmTest.Ioapic.Suite
import PcmTest.Ioapic.Thunk
import PcmTest.Apps.Agreement
import PcmTest.Apps.Ckevent
import PcmTest.Apps.Pcmtest
import PcmTest.Apps.RoundTrips
import PcmTest.Apps.ShortFiles
import PcmTest.Theory.Dump
import PcmTest.Apps.Ckcpu
