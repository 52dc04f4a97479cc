import Xv6Draw.Display
import Xv6Draw.Ai.Delivery
import Xv6Draw.Agent.Session
import Xv6Draw.Fs.Reservation
import Xv6Draw.Proc.Kill
import Xv6Draw.Pipe.Wakeup
import Xv6Draw.Files.Ends
import Xv6Draw.Mkfs.Image
import Xv6Draw.Draw.Circle
import Xv6Draw.Fs.LongWrite
import Xv6Draw.Fs.BufferCache
import Xv6Draw.Fs.Paths
import Xv6Draw.Fs.DirectoryMap
import Xv6Draw.Fs.InodeRefs
import Xv6Draw.Vm.Grow
import Xv6Draw.Draw.Rectangle
import Xv6Draw.Draw.Ellipse
import Xv6Draw.Draw.Triangle
import Xv6Draw.Draw.Polygon
import Xv6Draw.Draw.Syntax
import Xv6Draw.Files.Ioctl
import Xv6Draw.User.Grep
