import AuroraOS.Fat16.Subtrees
import AuroraOS.Fat16.Termination
import AuroraOS.Fat16.Agreement
import AuroraOS.Fat16.Confined
import AuroraOS.X509.Bounds
import AuroraOS.X509.Hostname
import AuroraOS.Asm.Exit
import AuroraOS.Wm.WindowTable
import AuroraOS.Net.HttpsGet
import AuroraOS.Net.ChunkBounds
import AuroraOS.Tls.Reassembly
import AuroraOS.Tls.Independence
import AuroraOS.Tls.Authentication
import AuroraOS.Tls.Send
import AuroraOS.Crypto.AesEncrypt
import AuroraOS.Inflate.RoundTrip
import AuroraOS.Apps.CrashRouting
import AuroraOS.Apps.Correspondence
import AuroraOS.Apps.PixelCache
import AuroraOS.Auth.Password
import AuroraOS.Terminal.Windowed
import AuroraOS.Apps.Drawing
import AuroraOS.Apps.Windows
import AuroraOS.Tls.Padding
import AuroraOS.Tls.Wire
import AuroraOS.Tls.Transcript
import AuroraOS.Inflate.Agreement
import AuroraOS.Inflate.Truncated
import AuroraOS.Inflate.Gzip
import AuroraOS.Crypto.Jacobian
import AuroraOS.Crypto.Rsa
import AuroraOS.Crypto.SharedSecret
import AuroraOS.Tls.Prf
import AuroraOS.Notes.Session
import AuroraOS.Css.Cascade
import AuroraOS.Css.Pieces
import AuroraOS.Html.Wrapping
import AuroraOS.Html.Scoping
import AuroraOS.Html.Selectors
import AuroraOS.Gfx.Rect
import AuroraOS.Terminal.Screen
import AuroraOS.Input.AppEvents
import AuroraOS.Gfx.LinePoints
import AuroraOS.Gfx.Glyphs
import AuroraOS.Net.Dns
import AuroraOS.Net.Ipv4
import AuroraOS.Net.E1000
import AuroraOS.Net.Send
import AuroraOS.Net.SegmentBounds
import AuroraOS.Wm.Url
import AuroraOS.Asm.Acceptance
import AuroraOS.Asm.Running
