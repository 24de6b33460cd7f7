import EmbeddedSystems.Clocked
import EmbeddedSystems.CollatzOrbit
import EmbeddedSystems.CollatzMachine
import EmbeddedSystems.RangeMachine
import EmbeddedSystems.RangeSweep
import EmbeddedSystems.RangeHistory
import EmbeddedSystems.VgaBall
import EmbeddedSystems.VgaPicture
import EmbeddedSystems.Interleaving
import EmbeddedSystems.VgaDriver
import EmbeddedSystems.CArray
import EmbeddedSystems.Screen
import EmbeddedSystems.Keyboard
import EmbeddedSystems.SendLoop
import EmbeddedSystems.LineEditor
import EmbeddedSystems.Delivery
import EmbeddedSystems.EmittingLoop
import EmbeddedSystems.MessageArea
import EmbeddedSystems.MessageLayout
import EmbeddedSystems.ChatScreen
import EmbeddedSystems.VgaIoctl
import EmbeddedSystems.VgaProbe
import EmbeddedSystems.Lab1Browse
import EmbeddedSystems.Lab1Display
import EmbeddedSystems.KeyPresses
import EmbeddedSystems.KeyRepeat
import EmbeddedSystems.FontLookup
import EmbeddedSystems.VgaScan
import EmbeddedSystems.InputRow
import EmbeddedSystems.ButtonSchedule
import EmbeddedSystems.Debouncer
import EmbeddedSystems.Framebuffer
import EmbeddedSystems.ScreenPixels
import EmbeddedSystems.Lab1Board
import EmbeddedSystems.Lab1Collision
import EmbeddedSystems.RepeatRate
import EmbeddedSystems.BallDemo
import EmbeddedSystems.NetworkReads
import EmbeddedSystems.OpenKeyboard
import EmbeddedSystems.PixelStores
import EmbeddedSystems.ChatPeers
import EmbeddedSystems.VgaLifecycle
import EmbeddedSystems.ChatProgress
import EmbeddedSystems.DrawBounds
import EmbeddedSystems.VgaTearing
import EmbeddedSystems.Lab1Settings
