import Calabash.Web.HeadBounds
import Calabash.Web.KeepAlive
import Calabash.Web.Middleware
import Calabash.Web.OrdinaryHead
import Calabash.Web.Framing
import Calabash.Web.HeaderNames
import Calabash.Web.HttpTask
import Calabash.Web.StaticFiles
import Calabash.Web.Query
import Calabash.Thread.Tasks
import Calabash.Database.Bindings
import Calabash.Socket.Batch
import Calabash.Socket.GiveBack
import Calabash.Util.TokenExpiry
import Calabash.Util.Digest
import Calabash.Util.PoolLimit
import Calabash.Util.SharedAllocations
import Calabash.Web.ContentTypes
import Calabash.Web.BodyStores
import Calabash.Web.HeaderLines
import Calabash.Database.Registry
import Calabash.Util.Encoder
import Calabash.Util.Logger
import Calabash.Socket.Rest
import Calabash.Web.Serving
import Calabash.Database.Pointers
import Calabash.Web.Deployment
import Calabash.Web.Configuration
import Calabash.Socket.Capacity
import Calabash.Web.Liveness
