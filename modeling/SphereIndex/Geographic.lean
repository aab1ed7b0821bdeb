import SphereIndex.Vector

/-!
# Geographic coordinates

Latitude and longitude in degrees, and the points of the unit sphere they stand for.
-/

namespace SphereIndex

/-- Latitude and longitude in degrees. -/
structure LatLng where
  lat : Float
  lng : Float

namespace LatLng

def pi : Float := 3.14159265358979323846264338327950288

def toRadians (degrees : Float) : Float := degrees * (pi / 180)

def toDegrees (radians : Float) : Float := radians * (180 / pi)

def toPoint (g : LatLng) : Vec3 Float :=
  let lat := toRadians g.lat
  let lng := toRadians g.lng
  ⟨lat.cos * lng.cos, lat.cos * lng.sin, lat.sin⟩

/-- The coordinates of the direction of a point, which need not have length 1. -/
def ofPoint (p : Vec3 Float) : LatLng :=
  ⟨toDegrees (Float.atan2 p.z (p.x * p.x + p.y * p.y).sqrt), toDegrees (Float.atan2 p.y p.x)⟩

/-- The point of the plane with the longitude as x and the latitude as y. -/
def toPlane (g : LatLng) : Vec2 Float := ⟨g.lng, g.lat⟩

def ofPlane (p : Vec2 Float) : LatLng := ⟨p.y, p.x⟩

end LatLng

end SphereIndex
