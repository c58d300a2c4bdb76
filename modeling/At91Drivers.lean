import At91Drivers.Flash.Concurrent
import At91Drivers.Flash.BufferFit
import At91Drivers.Flash.GoodBlocks
import At91Drivers.Flash.RoundTrip
import At91Drivers.Flash.ReadFaults
import At91Drivers.Flash.Ends
import At91Drivers.Flash.Position
import At91Drivers.Flash.ReadReturn
import At91Drivers.Flash.ReadRange
import At91Drivers.Flash.WriteReturn
import At91Drivers.Flash.Search
import At91Drivers.Flash.TableBounds
import At91Drivers.Flash.Loading
import At91Drivers.Flash.Isolation
import At91Drivers.Flash.Table
import At91Drivers.Flash.Plans
import At91Drivers.Flash.File
import At91Drivers.Flash.Termination
import At91Drivers.Adc.Racing
import At91Drivers.Adc.Interrupts
import At91Drivers.Ds18b20.Measuring
import At91Drivers.Ds18b20.Concurrent
import At91Drivers.Gpio.Board
import At91Drivers.Commands
import At91Drivers.Registration
